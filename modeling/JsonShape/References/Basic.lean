import JsonShape.Typespace.Basic

namespace JsonShape

-- Referenced names in the form of a node.
inductive References
  | names (names : List String)
  | shape (members : List (String × References))
  | slots (slots : List References)

namespace References

mutual

-- All names in order, repetitions included.
def flatten : References → List String
  | .names list => list
  | .shape members => flattenMembers members
  | .slots parts => flattenSlots parts

def flattenMembers : List (String × References) → List String
  | [] => []
  | (_, references) :: rest => references.flatten ++ flattenMembers rest

def flattenSlots : List References → List String
  | [] => []
  | references :: rest => references.flatten ++ flattenSlots rest

end

-- The list of names, if there is nothing but a list.
def names? : References → Option (List String)
  | .names list => some list
  | _ => none

mutual

def toJson : References → Json
  | .names list => .array (list.map Json.string)
  | .shape members => .object (membersToJson members)
  | .slots parts => .array (slotsToJson parts)

def membersToJson : List (String × References) → List (String × Json)
  | [] => []
  | (key, references) :: rest => (key, references.toJson) :: membersToJson rest

def slotsToJson : List References → List Json
  | [] => []
  | references :: rest => references.toJson :: slotsToJson rest

end

end References

-- How names are collected.
structure Collection where
  space : Declarations
  -- The names that the result shows.
  admits : String → Bool
  transitive : Bool

namespace Collection

-- The name, unless it is hidden.
def shown (c : Collection) (name : String) : List String :=
  if c.admits name then [name] else []

mutual

-- Every mention of a name in order.
def mentions (c : Collection) (ctx : Context) (node : Node) : List String :=
  match node with
  | .primitive _ | .literal _ => []
  | .reference name =>
    c.shown name ++
      if c.transitive then
        match h : ctx.reference c.space name with
        | .node resolved inside =>
          have := Context.unseen_lt h
          mentions c inside resolved
        | .cycle .. | .unresolved => []
      else []
  | .list item => mentions c ctx item
  | .optional inner => mentions c ctx inner
  | .tuple slots => mentionsAll c ctx slots
  | .union members => mentionsAll c ctx members
  | .struct members => mentionsFields c ctx members
termination_by (ctx.unseen c.space, sizeOf node)

def mentionsAll (c : Collection) (ctx : Context) (nodes : List Node) : List String :=
  match nodes with
  | [] => []
  | node :: rest => mentions c ctx node ++ mentionsAll c ctx rest
termination_by (ctx.unseen c.space, sizeOf nodes)

def mentionsFields (c : Collection) (ctx : Context) (members : List (String × Node)) : List String :=
  match members with
  | [] => []
  | (_, member) :: rest => mentions c ctx member ++ mentionsFields c ctx rest
termination_by (ctx.unseen c.space, sizeOf members)

end

-- The shown names that a walk found, and all names that have been visited by its end.
structure Discovery where
  found : List String
  visited : List String

-- Goes on from the end of a walk.
def Discovery.bind (d : Discovery) (walk : List String → Discovery) : Discovery :=
  let next := walk d.visited
  ⟨d.found ++ next.found, next.visited⟩

mutual

-- The first mention of every name that has not been visited before.
def discover (c : Collection) (ctx : Context) (node : Node) (visited : List String) : Discovery :=
  match node with
  | .primitive _ | .literal _ => ⟨[], visited⟩
  | .reference name =>
    if name ∈ visited then ⟨[], visited⟩
    else
      let here : Discovery := ⟨c.shown name, name :: visited⟩
      if c.transitive then
        match h : ctx.reference c.space name with
        | .node resolved inside =>
          have := Context.unseen_lt h
          here.bind (discover c inside resolved)
        | .cycle .. | .unresolved => here
      else here
  | .list item => discover c ctx item visited
  | .optional inner => discover c ctx inner visited
  | .tuple slots => discoverAll c ctx slots visited
  | .union members => discoverAll c ctx members visited
  | .struct members => discoverFields c ctx members visited
termination_by (ctx.unseen c.space, sizeOf node)

def discoverAll (c : Collection) (ctx : Context) (nodes : List Node) (visited : List String) :
    Discovery :=
  match nodes with
  | [] => ⟨[], visited⟩
  | node :: rest => (discover c ctx node visited).bind (discoverAll c ctx rest)
termination_by (ctx.unseen c.space, sizeOf nodes)

def discoverFields (c : Collection) (ctx : Context) (members : List (String × Node))
    (visited : List String) : Discovery :=
  match members with
  | [] => ⟨[], visited⟩
  | (_, member) :: rest => (discover c ctx member visited).bind (discoverFields c ctx rest)
termination_by (ctx.unseen c.space, sizeOf members)

end

mutual

-- The mentions in the form of the node: by key for a struct, and by slot for a tuple.
def shape (c : Collection) : Node → References
  | .struct members => .shape (shapeFields c members)
  | .tuple slots => .slots (shapeSlots c slots)
  | .optional inner => shape c inner
  | node => .names (mentions c {} node)

def shapeFields (c : Collection) : List (String × Node) → List (String × References)
  | [] => []
  | (key, member) :: rest => (key, shape c member) :: shapeFields c rest

def shapeSlots (c : Collection) : List Node → List References
  | [] => []
  | slot :: rest => shape c slot :: shapeSlots c rest

end

end Collection

end JsonShape
