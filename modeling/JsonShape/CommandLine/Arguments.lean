
namespace JsonShape

-- Why the words of a command line do not make a command.
inductive UsageError
  | argumentConflict
  | displayHelp
  | displayHelpOnMissingArgumentOrSubcommand
  | invalidSubcommand
  | invalidValue
  | missingRequiredArgument
  | tooManyValues
  | unknownArgument
deriving DecidableEq

def UsageError.name : UsageError → String
  | argumentConflict => "ArgumentConflict"
  | displayHelp => "DisplayHelp"
  | displayHelpOnMissingArgumentOrSubcommand => "DisplayHelpOnMissingArgumentOrSubcommand"
  | invalidSubcommand => "InvalidSubcommand"
  | invalidValue => "InvalidValue"
  | missingRequiredArgument => "MissingRequiredArgument"
  | tooManyValues => "TooManyValues"
  | unknownArgument => "UnknownArgument"

inductive Arity
  | flag
  | text
  -- A text that is not empty.
  | path
  -- Any number of texts, but at least one each time.
  | texts
deriving DecidableEq

namespace Arity

-- Does an option with this many values take another?
def takesMore : Arity → Nat → Bool
  | flag, _ => false
  | text, n | path, n => n = 0
  | texts, _ => true

end Arity

structure CommandOption where
  name : String
  short : Option Char := none
  arity : Arity
deriving DecidableEq

def helpOption : CommandOption :=
  { name := "help", short := some 'h', arity := .flag }

-- The settled options and their values.
abbrev Arguments := List (String × List String)

-- The option that values may still be added to, and those that it has.
abbrev Pending := Option (CommandOption × List String)

namespace Arguments

def has (arguments : Arguments) (name : String) : Bool :=
  (arguments.lookup name).isSome

def values (arguments : Arguments) (name : String) : List String :=
  arguments.flatMap fun (other, values) => if other = name then values else []

def value? (arguments : Arguments) (name : String) : Option String :=
  (arguments.values name).head?

def settle (arguments : Arguments) (option : CommandOption) (values : List String) :
    Except UsageError Arguments :=
  if option.arity ≠ .flag ∧ values.isEmpty then .error .invalidValue
  else if option = helpOption then .error .displayHelp
  else if option.arity ≠ .texts ∧ arguments.has option.name then .error .argumentConflict
  else if option.arity = .path ∧ values = [""] then .error .invalidValue
  else .ok (arguments ++ [(option.name, values)])

def settlePending (arguments : Arguments) : Pending → Except UsageError Arguments
  | none => .ok arguments
  | some (option, values) => arguments.settle option values

end Arguments

-- What a word of a command line is.
inductive Word
  | option (name : String) (value : Option String)
  | shorts (letters : List Char)
  | value (text : String)

-- Tells words apart by the dashes in front. One dash alone is a value.
def Word.ofText (text : String) : Word :=
  match text.toList with
  | '-' :: '-' :: rest =>
    let name := String.ofList (rest.takeWhile (· ≠ '='))
    match rest.dropWhile (· ≠ '=') with
    | [] => .option name none
    | _ :: attached => .option name (some (String.ofList attached))
  | '-' :: x :: rest => .shorts (x :: rest)
  | _ => .value text

-- The value that stands behind the letter of an option, if there is any.
def attached? : List Char → Option String
  | [] => none
  | '=' :: rest => some (String.ofList rest)
  | rest => some (String.ofList rest)

-- The option of the first letter of a word, with what follows as its value. The only option that has a
-- letter and takes no value asks for help, so what follows it is not looked at.
def readShort (options : List CommandOption) :
    List Char → Except UsageError (CommandOption × Option String)
  | [] => .error .unknownArgument
  | x :: rest =>
    match options.find? (·.short = some x) with
    | none => .error .unknownArgument
    | some option => .ok (option, if option.arity = .flag then none else attached? rest)

def startOption (arguments : Arguments) (pending : Pending) (option : CommandOption)
    (value : Option String) : Except UsageError (Arguments × Pending) :=
  match arguments.settlePending pending with
  | .error e => .error e
  | .ok arguments =>
    if option.arity ≠ .flag ∧ value.isNone then .ok (arguments, some (option, []))
    else (arguments.settle option value.toList).map fun arguments => (arguments, none)

def readWord (options : List CommandOption) (arguments : Arguments) (pending : Pending) :
    Word → Except UsageError (Arguments × Pending)
  | .value text =>
    match pending with
    | some (option, values) =>
      if option.arity.takesMore values.length then
        .ok (arguments, some (option, values ++ [text]))
      else .error .unknownArgument
    | none => .error .unknownArgument
  | .option name value =>
    match options.find? (·.name = name) with
    | none => .error .unknownArgument
    | some option =>
      if option.arity = .flag ∧ value.isSome then .error .tooManyValues
      else startOption arguments pending option value
  | .shorts letters =>
    match readShort options letters with
    | .error e => .error e
    | .ok (option, value) => startOption arguments pending option value

-- Reads the words of a command. Two dashes end the options, and no command takes other words.
def readArguments (options : List CommandOption) (arguments : Arguments) (pending : Pending) :
    List String → Except UsageError Arguments
  | [] => arguments.settlePending pending
  | word :: rest =>
    if word = "--" then
      if rest.isEmpty then arguments.settlePending pending else .error .unknownArgument
    else
      match readWord options arguments pending (Word.ofText word) with
      | .error e => .error e
      | .ok (arguments, pending) => readArguments options arguments pending rest

end JsonShape
