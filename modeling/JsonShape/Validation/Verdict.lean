import JsonShape.Validation.Check

namespace JsonShape

inductive ReturnAs
  | message
  | map
deriving DecidableEq

structure ValidateOptions where
  -- Accepts keys that the definition does not declare.
  ignoreExtraneousKeys : Bool := false
  returnAs : Option ReturnAs := none
deriving DecidableEq

def validate (space : Typespace) (options : ValidateOptions) (node : Node) (value : Json) :
    List ValidationError :=
  Validation.check space options.ignoreExtraneousKeys {} none value node

structure ValidationFailure where
  errors : List ValidationError

def ValidationFailure.message (failure : ValidationFailure) : String :=
  Report.text failure.errors

inductive Verdict
  | valid
  | message (text : String)
  | map (report : Members String)
deriving DecidableEq

def Verdict.of (returnAs : Option ReturnAs) (errors : List ValidationError) :
    Except ValidationFailure Verdict :=
  match returnAs with
  | some .map => .ok (.map (Report.byPath errors))
  | some .message => .ok (.message (Report.text errors))
  | none => if errors.isEmpty then .ok .valid else .error ⟨errors⟩

end JsonShape
