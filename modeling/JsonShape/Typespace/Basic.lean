import JsonShape.Typespace.Alias

namespace JsonShape

structure Typespace where
  declarations : Declarations
  wellFounded : WellFounded (AliasStep declarations)

-- Does the text start with a letter, an underscore or a dollar sign, with digits allowed behind it?
def isTypeName (name : String) : Bool :=
  let isMark (x : Char) := x = '_' || x = '$'
  match name.toList with
  | [] => false
  | x :: rest => (x.isAlpha || isMark x) && rest.all fun y => y.isAlphanum || isMark y

-- Is the name the name of a keyword or of a truth value?
def isReserved (name : String) : Bool :=
  (Keyword.ofName? name).isSome || name = "true" || name = "false"

namespace Typespace

def empty : Typespace where
  declarations := []
  wellFounded := AliasStep.wellFounded_of_aliasCycle? rfl

def names (space : Typespace) : List String :=
  space.declarations.names

def resolve? (space : Typespace) (name : String) : Option Node :=
  space.declarations.resolve? name

def isDeclared (space : Typespace) (name : String) : Bool :=
  space.names.contains name

def checkNames : List String → Except DefinitionError Unit
  | [] => .ok ()
  | name :: rest =>
    if isReserved name then .error (.reservedName name)
    else if ¬isTypeName name then .error (.invalidName name)
    else checkNames rest

-- The declarations of raw definitions, which may refer to one another.
def declare (declared : String → Bool) : Members Json → Except DefinitionError Declarations
  | [] => .ok []
  | (name, definition) :: rest =>
    match Definition.parse declared definition with
    | .error e => .error e
    | .ok node =>
      match declare declared rest with
      | .error e => .error e
      | .ok declarations => .ok ({ name, definition, node } :: declarations)

def compile (raw : Members Json) : Except DefinitionError Typespace :=
  match checkNames raw.names with
  | .error e => .error e
  | .ok () =>
    match declare raw.names.contains raw with
    | .error e => .error e
    | .ok declarations =>
      match h : declarations.aliasCycle? with
      | some cycle => .error (.aliasCycle cycle.name cycle.loop)
      | none => .ok { declarations, wellFounded := AliasStep.wellFounded_of_aliasCycle? h }

-- The typespace of an object of definitions. There are no declarations in `null`.
def ofJson : Json → Except DefinitionError Typespace
  | .object members => compile members
  | .null => .ok empty
  | value => .error (.invalidTypespace value.brief)

-- The length of the longest chain of names that a node can be replaced by.
def aliasHeight (space : Typespace) (node : Node) : Nat :=
  match node with
  | .reference name =>
    match h : space.resolve? name with
    | some resolved => aliasHeight space resolved + 1
    | none => 0
  | .union members => (members.map fun member => aliasHeight space member).foldr max 0
  | .optional inner => aliasHeight space inner
  | _ => 0
termination_by space.wellFounded.wrap node
decreasing_by
  · exact .reference h
  · exact .member ‹_›
  · exact .optional

variable {space : Typespace} {node : Node}

theorem aliasHeight_lt_of_resolve? {name : String} (h : space.resolve? name = some node) :
    space.aliasHeight node < space.aliasHeight (.reference name) := by
  rw [aliasHeight.eq_def space (.reference name)]
  simp only
  split <;> simp_all

theorem aliasHeight_optional : space.aliasHeight (.optional node) = space.aliasHeight node := by
  rw [aliasHeight]

theorem aliasHeight_union_cons {members : List Node} :
    space.aliasHeight (.union (node :: members)) =
      max (space.aliasHeight node) (space.aliasHeight (.union members)) := by
  simp [aliasHeight]

end Typespace

end JsonShape
