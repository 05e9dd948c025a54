import JsonShape.CommandLine.Arguments
import JsonShape.Load

namespace JsonShape

-- Where the definition and the named types of a model come from.
structure ModelSource where
  definition : ValueArgument
  typespace : Option String

structure ValidateCommand where
  model : ModelSource
  inputs : List String
  -- Has each line of an input a document of its own?
  byLine : Bool
  ignoreExtraneousKeys : Bool
  -- A file of options. It takes the place of the setting above.
  options : Option String
  returnAs : ReturnAs

structure GenerateCommand where
  model : ModelSource
  onRequiredCycle : Option ValueArgument
  out : Option String

structure ReferencesCommand where
  model : ModelSource
  options : ReferencesOptions

inductive Command
  | validate (command : ValidateCommand)
  | generate (command : GenerateCommand)
  | references (command : ReferencesCommand)

namespace ModelSource

-- The options for the definition of a model, and the one for help.
def accepted : List CommandOption :=
  [{ name := "def", arity := .text }, { name := "typespace", arity := .path }, helpOption]

def ofArguments (arguments : Arguments) : Except UsageError ModelSource :=
  match arguments.value? "def" with
  | none => .error .missingRequiredArgument
  | some definition =>
    .ok { definition := .ofText definition, typespace := arguments.value? "typespace" }

end ModelSource

namespace ValidateCommand

def accepted : List CommandOption :=
  ModelSource.accepted ++
    [{ name := "ndjson", arity := .flag },
     { name := "input", short := some 'i', arity := .texts },
     { name := "ignore-extraneous-keys", arity := .flag },
     { name := "map", arity := .flag },
     { name := "options", arity := .path }]

def ofArguments (arguments : Arguments) : Except UsageError ValidateCommand :=
  if arguments.has "options" ∧ arguments.has "ignore-extraneous-keys" then .error .argumentConflict
  else if ¬arguments.has "input" then .error .missingRequiredArgument
  else
    (ModelSource.ofArguments arguments).map fun model =>
      { model
        inputs := arguments.values "input"
        byLine := arguments.has "ndjson"
        ignoreExtraneousKeys := arguments.has "ignore-extraneous-keys"
        options := arguments.value? "options"
        returnAs := if arguments.has "map" then .map else .message }

end ValidateCommand

namespace GenerateCommand

def accepted : List CommandOption :=
  ModelSource.accepted ++
    [{ name := "on-required-cycle", arity := .text },
     { name := "out", short := some 'o', arity := .path }]

def ofArguments (arguments : Arguments) : Except UsageError GenerateCommand :=
  (ModelSource.ofArguments arguments).map fun model =>
    { model
      onRequiredCycle := (arguments.value? "on-required-cycle").map .ofText
      out := arguments.value? "out" }

end GenerateCommand

namespace ReferencesCommand

def accepted : List CommandOption :=
  ModelSource.accepted ++
    [{ name := "unordered", arity := .flag },
     { name := "list", arity := .flag },
     { name := "filter", arity := .text },
     { name := "transitive", arity := .flag }]

def ofArguments (arguments : Arguments) : Except UsageError ReferencesCommand :=
  if arguments.has "unordered" ∧ arguments.has "list" then .error .argumentConflict
  else
    (ModelSource.ofArguments arguments).map fun model =>
      { model
        options :=
          { asUnorderedList := arguments.has "unordered"
            asList := arguments.has "list"
            filter := (arguments.value? "filter").map .contains
            transitive := arguments.has "transitive" } }

end ReferencesCommand

namespace Command

def names : List String :=
  ["validate", "generate", "references", "help"]

-- Help can be asked for about one command.
def parseHelp : List String → UsageError
  | [] => .displayHelp
  | [name] => if name ∈ names then .displayHelp else .invalidSubcommand
  | _ => .invalidSubcommand

-- What is wrong with words that do not start with the name of a command.
def parseOther (word : String) (rest : List String) : UsageError :=
  if word = "--" then
    match rest with
    | [] => .displayHelpOnMissingArgumentOrSubcommand
    | name :: _ => if name ∈ names then .unknownArgument else .invalidSubcommand
  else
    match Word.ofText word with
    | .value _ => .invalidSubcommand
    | other =>
      match readWord [helpOption] [] none other with
      | .error e => e
      | .ok _ => .unknownArgument

def parse : List String → Except UsageError Command
  | [] => .error .displayHelpOnMissingArgumentOrSubcommand
  | "validate" :: words =>
    ((readArguments ValidateCommand.accepted [] none words).bind ValidateCommand.ofArguments).map validate
  | "generate" :: words =>
    ((readArguments GenerateCommand.accepted [] none words).bind GenerateCommand.ofArguments).map generate
  | "references" :: words =>
    ((readArguments ReferencesCommand.accepted [] none words).bind ReferencesCommand.ofArguments).map
      references
  | "help" :: words => .error (parseHelp words)
  | word :: rest => .error (parseOther word rest)

end Command

end JsonShape
