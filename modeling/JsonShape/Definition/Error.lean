
namespace JsonShape

inductive DefinitionError
  -- An expression that is not understood, or a name that is not declared.
  | unknownType (text : String)
  | reservedName (name : String)
  | invalidName (name : String)
  -- A name that leads back to itself through unions and optionals alone, and the names on the way.
  | aliasCycle (name : String) (path : List String)
  | duplicateMember (name : String)
  | optionalTupleSlot (definition : String)
  | invalidTypespace (found : String)
deriving DecidableEq

-- Names in the order in which each leads to the next.
def chainText (names : List String) : String :=
  "=>".intercalate names

def DefinitionError.message : DefinitionError → String
  | unknownType text => s!"Unable to determine the type of '{text}'."
  | reservedName name => s!"'{name}' is a reserved keyword and cannot be declared as a type name."
  | invalidName name => s!"'{name}' is not a valid type name."
  | aliasCycle name path =>
    s!"'{name}' references itself without an intervening object or array: {chainText path}."
  | duplicateMember name =>
    s!"Member '{name}' is declared more than once; use either '{name}' or '{name}?'."
  | optionalTupleSlot definition =>
    s!"Optional tuple elements must come after all required elements in '{definition}'."
  | invalidTypespace found =>
    s!"A typespace must be an object mapping type names to definitions, got {found}."

end JsonShape
