import JsonShape.Generation.Synthesis
import JsonShape.References.Filter
import JsonShape.Validation.Verdict

namespace JsonShape

structure ModelOptions where
  -- Takes the place of the typespace that the model would be defined in.
  typespace : Option Json := none
  validate : ValidateOptions := {}
  generate : GenerateOptions := {}

structure Model where
  typespace : Typespace
  node : Node
  validateOptions : ValidateOptions
  generateOptions : GenerateOptions

namespace Typespace

-- The node of a definition that may use the names of this typespace.
def parse (space : Typespace) (definition : Json) : Except DefinitionError Node :=
  Definition.parse space.isDeclared definition

-- The typespace that a model is defined in.
def overridden (space : Typespace) (options : ModelOptions) : Except DefinitionError Typespace :=
  options.typespace.elim (.ok space) ofJson

def define (space : Typespace) (options : ModelOptions) (definition : Json) :
    Except DefinitionError Model :=
  match space.overridden options with
  | .error e => .error e
  | .ok typespace =>
    match typespace.parse definition with
    | .error e => .error e
    | .ok node =>
      .ok { typespace, node, validateOptions := options.validate, generateOptions := options.generate }

def model (space : Typespace) (name : String) : Except DefinitionError Model :=
  if space.isDeclared name then space.define {} (.string name) else .error (.unknownType name)

end Typespace

namespace Model

def definition (m : Model) : Json :=
  m.node.definition

def errors (m : Model) (options : ValidateOptions) (value : Json) : List ValidationError :=
  JsonShape.validate m.typespace options m.node value

-- Validates with the options of the model. Any mismatch is a failure.
def validate (m : Model) (value : Json) : Except ValidationFailure Unit :=
  (Verdict.of none (m.errors m.validateOptions value)).map fun _ => ()

def validateWith (m : Model) (options : ValidateOptions) (value : Json) :
    Except ValidationFailure Verdict :=
  Verdict.of options.returnAs (m.errors options value)

-- Generates with the options of the model.
def generate (m : Model) : Except GenerateError Json :=
  JsonShape.generate m.typespace m.generateOptions m.node

def generateWith (m : Model) (options : GenerateOptions) : Except GenerateError Json :=
  JsonShape.generate m.typespace options m.node

-- The names that the definition mentions, each one once.
def references (m : Model) : List String :=
  (JsonShape.references m.typespace { asUnorderedList := true } m.node).flatten

def referencesWith (m : Model) (options : ReferencesOptions) : References :=
  JsonShape.references m.typespace options m.node

end Model

end JsonShape
