import JsonShape.Files.Fault
import JsonShape.Options.Settings
import JsonShape.Text.Blank

namespace JsonShape

inductive LoadError
  | read (path : String) (fault : FileFault)
  | json (error : ReadError)
  -- An error on one line of a text. Lines count from one.
  | line (number : Nat) (error : LoadError)

namespace LoadError

def message : LoadError → String
  | read path fault => s!"failed to read {path}: {fault.message}"
  | json error => s!"at JSON path {Part.pathText error.path} → {error.message}"
  | line number error => s!"line {number}: {error.message}"

-- The message with those of the errors that caused it.
def chain : LoadError → List String
  | read path fault => [(read path fault).message, fault.message]
  | json error => [(json error).message]
  | line number error => (line number error).message :: error.chain

end LoadError

-- What the files of a program hold.
abbrev ReadFile := String → Except FileFault String

-- The value that a text starts with.
def loadText {α : Type} (format : Format α) (text : String) : Except LoadError α :=
  match format.parseStart text with
  | .ok a => .ok a
  | .error e => .error (.json e)

-- The value that a file starts with.
def loadFile {α : Type} (format : Format α) (read : ReadFile) (path : String) : Except LoadError α :=
  match read path with
  | .error fault => .error (.read path fault)
  | .ok text => loadText format text

-- A value that is given as an argument.
inductive ValueArgument
  | file (path : String)
  | given (value : Json)

namespace ValueArgument

-- An at sign stands in front of the path of a file. Any other text is the value that it writes, or a string
-- if it writes none.
def ofText (text : String) : ValueArgument :=
  match text.toList with
  | '@' :: path => file (String.ofList path)
  | _ => given ((Json.parse? text).getD (.string text))

def load (read : ReadFile) : ValueArgument → Except LoadError Json
  | file path => loadFile .value read path
  | given value => .ok value

-- The file that has to be read, if there is one.
def path? : ValueArgument → Option String
  | file path => some path
  | given _ => none

end ValueArgument

-- The values on the lines from this number on. Lines of white space are passed over.
def loadLines (number : Nat) : List (List Char) → Except LoadError (List Json)
  | [] => .ok []
  | line :: rest =>
    if line.all isBlank then loadLines (number + 1) rest
    else
      match loadText .value (String.ofList line) with
      | .error e => .error (.line number e)
      | .ok value =>
        match loadLines (number + 1) rest with
        | .error e => .error e
        | .ok values => .ok (value :: values)

-- The documents of a text that has one on each line.
def documents (text : String) : Except LoadError (List Json) :=
  loadLines 1 (lines text.toList)

end JsonShape
