import JsonShape.Generation.Error
import JsonShape.Typespace.Basic

namespace JsonShape

-- Why a node gives neither a value nor absence.
inductive Halt
  -- A cycle that an enclosing union can avoid.
  | cycle (cycle : Cycle)
  | failed (error : GenerateError)
deriving DecidableEq

-- What a node gives: a value, or absence where there is none.
abbrev Synthesis := Except Halt (Option Json)

namespace Synthesis

def ungeneratable (definition reason : String) : Synthesis :=
  .error (.failed (.ungeneratable definition reason))

def unrepresentable (node : Node) : GenerateError :=
  .ungeneratable node.text "An undefined value can only be omitted from an object, not placed here."

def ofKeyword (keyword : Keyword) : Synthesis :=
  match keyword with
  | .string => .ok (some (.string ""))
  | .number | .bigint => .ok (some (.ofNat 0))
  | .boolean => .ok (some (.bool false))
  | .null | .any | .unknown => .ok (some .null)
  | .object => .ok (some (.object []))
  | .undefined | .void => .ok none
  | .never => ungeneratable "never" "'never' has no values."
  | .symbol | .function =>
    ungeneratable keyword.name s!"'{keyword.name}' values have no JSON representation."

-- What a name that is met again gives.
def ofCycle (substitute : Option Json) (cycle : Cycle) : Synthesis :=
  match cycle.kind, substitute with
  | .avoidable, _ => .error (.cycle cycle)
  | .required, some value => .ok (some value)
  | .required, none => .error (.failed (.requiredCycle cycle.name cycle.seen))

-- What a union gives when no member of it gave a value: absence if one gave that, and the first failure
-- otherwise.
def ofExhausted (absent : Bool) (failure : Option GenerateError) : Synthesis :=
  if absent then .ok none
  else .error (.failed (failure.getD (.ungeneratable "" "An empty union has no values.")))

mutual

-- What a node gives. The substitute stands for cycles that cannot be avoided.
def ofNode (space : Declarations) (substitute : Option Json) (ctx : Context) (node : Node) :
    Synthesis :=
  match node with
  | .primitive keyword => ofKeyword keyword
  | .literal literal => .ok (some literal.toJson)
  | .reference name =>
    match h : ctx.reference space name with
    | .node resolved inside =>
      have := Context.unseen_lt h
      ofNode space substitute inside resolved
    | .cycle _ cycle => ofCycle substitute cycle
    | .unresolved => ungeneratable name s!"'{name}' is not declared in the typespace."
  | .list _ => .ok (some (.array []))
  | .tuple slots =>
    match ofSlots space substitute ctx slots with
    | .error halt => .error halt
    | .ok items => .ok (some (.array items))
  | .union members => ofUnion space substitute ctx false none members
  | .optional inner => ofNode space substitute ctx inner
  | .struct members =>
    match ofMembers space substitute ctx members with
    | .error halt => .error halt
    | .ok entries => .ok (some (.object entries))
termination_by (ctx.unseen space, sizeOf node)

-- The values of the slots up to the first optional one.
def ofSlots (space : Declarations) (substitute : Option Json) (ctx : Context) (slots : List Node) :
    Except Halt (List Json) :=
  match slots with
  | [] => .ok []
  | slot :: rest =>
    if slot.isOptional then .ok []
    else
      match ofNode space substitute ctx slot with
      | .error halt => .error halt
      | .ok none => .error (.failed (unrepresentable slot))
      | .ok (some item) =>
        match ofSlots space substitute ctx rest with
        | .error halt => .error halt
        | .ok items => .ok (item :: items)
termination_by (ctx.unseen space, sizeOf slots)

-- What the members of a union give from here on, after members that gave absence or failed.
def ofUnion (space : Declarations) (substitute : Option Json) (ctx : Context) (absent : Bool)
    (failure : Option GenerateError) (members : List Node) : Synthesis :=
  match members with
  | [] => ofExhausted absent failure
  | member :: rest =>
    have := @Context.unseen_alternative space ctx (!rest.isEmpty)
    match ofNode space substitute (ctx.alternative (!rest.isEmpty)) member with
    | .ok (some value) => .ok (some value)
    | .ok none => ofUnion space substitute ctx true failure rest
    | .error (.failed (.ungeneratable definition reason)) =>
      ofUnion space substitute ctx absent (failure.or (some (.ungeneratable definition reason))) rest
    | .error (.failed error) => .error (.failed error)
    | .error (.cycle cycle) =>
      if ¬rest.isEmpty ∨ absent then ofUnion space substitute ctx absent failure rest
      else .error (.cycle cycle)
termination_by (ctx.unseen space, sizeOf members)
decreasing_by
  · exact this ▸ .right _ (by simp only [List.cons.sizeOf_spec]; omega)
  all_goals exact .right _ (by simp only [List.cons.sizeOf_spec]; omega)

-- The members of an object that have values. Those that may be missing are left out.
def ofMembers (space : Declarations) (substitute : Option Json) (ctx : Context)
    (members : List (String × Node)) : Except Halt (List (String × Json)) :=
  match members with
  | [] => .ok []
  | (key, member) :: rest =>
    if member.isOptional then ofMembers space substitute ctx rest
    else
      match ofNode space substitute ctx member with
      | .error halt => .error halt
      | .ok value =>
        match ofMembers space substitute ctx rest with
        | .error halt => .error halt
        | .ok entries => .ok (value.elim entries fun value => (key, value) :: entries)
termination_by (ctx.unseen space, sizeOf members)

end

end Synthesis

structure GenerateOptions where
  -- The value that stands where a cycle cannot be avoided.
  onRequiredCycle : Option Json := none

def generate (space : Typespace) (options : GenerateOptions) (node : Node) :
    Except GenerateError Json :=
  match Synthesis.ofNode space.declarations options.onRequiredCycle {} node with
  | .ok (some value) => .ok value
  | .ok none => .error (Synthesis.unrepresentable node)
  | .error (.failed error) => .error error
  | .error (.cycle cycle) => .error (.requiredCycle cycle.name cycle.seen)

end JsonShape
