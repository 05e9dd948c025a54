import JsonShape.Definition.Expression

namespace JsonShape

namespace Definition

-- The name and the node of a struct member that is written under this key.
def field (key : String) (node : Node) : String × Node :=
  match dropEnd? key.toList ['?'] with
  | some name => (String.ofList name, if node.isOptional then node else .optional node)
  | none => (key, node)

-- Does a required slot follow an optional one?
def requiredFollowsOptional (slots : List Node) : Bool :=
  (slots.dropWhile fun slot => ¬slot.isOptional).any fun slot => ¬slot.isOptional

mutual

-- The node of a definition. A name counts as declared if the test says so.
def parse (declared : String → Bool) : Json → Except DefinitionError Node
  | .null => .ok (.primitive .null)
  | .bool b => .ok (.literal (.bool b))
  | .number n => .ok (.literal (.number n.value))
  | .string text => Expression.parse declared text
  | .array items =>
    match parseSlots declared items with
    | .error e => .error e
    | .ok [item] =>
      if item.isOptional then .error (.unknownType (Json.array items).compact) else .ok (.list item)
    | .ok slots =>
      if requiredFollowsOptional slots then .error (.optionalTupleSlot (Json.array items).compact)
      else .ok (.tuple slots)
  | .object members => (parseFields declared [] members).map Node.struct

-- The nodes of the items of an array, up to the first that is refused.
def parseSlots (declared : String → Bool) : List Json → Except DefinitionError (List Node)
  | [] => .ok []
  | item :: rest =>
    match parse declared item with
    | .error e => .error e
    | .ok slot =>
      match parseSlots declared rest with
      | .error e => .error e
      | .ok slots => .ok (slot :: slots)

-- The members of a struct. Names that were used before must not come again.
def parseFields (declared : String → Bool) (used : List String) :
    List (String × Json) → Except DefinitionError (List (String × Node))
  | [] => .ok []
  | (key, value) :: rest =>
    match parse declared value with
    | .error e => .error e
    | .ok node =>
      let (name, member) := field key node
      if name ∈ used then .error (.duplicateMember name)
      else
        match parseFields declared (name :: used) rest with
        | .error e => .error e
        | .ok members => .ok ((name, member) :: members)

end

end Definition

end JsonShape
