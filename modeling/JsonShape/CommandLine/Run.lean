import JsonShape.CommandLine.Command
import JsonShape.Files.Glob

namespace JsonShape

-- What a command sees of the files around it.
structure Files where
  read : ReadFile
  -- The paths that a glob pattern stands for.
  expand : String → Except GlobError (List String)

def FileSystem.files (fs : FileSystem ByteArray) : Files where
  read path := (fs.read path).bind fileText
  expand pattern := (Glob.parse pattern).map fun glob => glob.find fs

-- What went wrong, with its causes behind it.
structure Failure where
  chain : List String

namespace Failure

def message (failure : Failure) : String :=
  ": ".intercalate failure.chain

def of (context : String) (chain : List String) : Failure :=
  ⟨context :: chain⟩

def ofSave (path : String) : SaveFault → Failure
  | .directory fault => ⟨[fault.message]⟩
  | .file fault => of s!"failed to write {path}" [fault.message]

end Failure

inductive CommandResult
  -- A command that finds errors prints them, but does not succeed.
  | print (text : String) (success : Bool)
  | save (path text : String)

-- The exit code of the program when it has printed or saved the text.
def CommandResult.exitCode : CommandResult → UInt32
  | print _ success => if success then 0 else 1
  | save .. => 0

namespace ModelSource

def loadTypespace (source : ModelSource) (read : ReadFile) : Except Failure Typespace :=
  match source.typespace with
  | none => .ok .empty
  | some path =>
    match loadFile .value read path with
    | .error e => .error (.of s!"failed to load typespace {path}" e.chain)
    | .ok raw =>
      match Typespace.ofJson raw with
      | .error e => .error (.of s!"invalid typespace {path}" [e.message])
      | .ok space => .ok space

def load (source : ModelSource) (read : ReadFile) : Except Failure Model :=
  match source.loadTypespace read with
  | .error failure => .error failure
  | .ok space =>
    match source.definition.load read with
    | .error e => .error (.of "failed to load definition" e.chain)
    | .ok definition =>
      match space.define {} definition with
      | .error e => .error (.of "invalid definition" [e.message])
      | .ok model => .ok model

def paths (source : ModelSource) : List String :=
  source.typespace.toList ++ source.definition.path?.toList

end ModelSource

-- A value to be validated. The label says where it comes from.
structure Document where
  label : String
  value : Json

namespace Document

-- The documents of the text of a file. If each line has one, they are counted.
def ofText (byLine : Bool) (path text : String) : Except Failure (List Document) :=
  if byLine then
    match documents text with
    | .error e => .error (.of s!"failed to parse NDJSON file {path}" e.chain)
    | .ok values => .ok ((values.zipIdx 1).map fun (value, n) => ⟨s!"{path}#{n}", value⟩)
  else
    match loadText .value text with
    | .error e => .error (.of s!"failed to parse JSON file {path}" e.chain)
    | .ok value => .ok [⟨path, value⟩]

def load (byLine : Bool) (read : ReadFile) : List String → Except Failure (List Document)
  | [] => .ok []
  | path :: rest =>
    match read path with
    | .error fault => .error (.of s!"failed to read source file {path}" [fault.message])
    | .ok text =>
      match ofText byLine path text with
      | .error failure => .error failure
      | .ok first => (load byLine read rest).map (first ++ ·)

-- What is printed for a document: its label, and its errors on lines below.
def report (document : Document) : Option String → String
  | none => s!"✅ {document.label}\n"
  | some errors =>
    let below := (lines errors.toList).map fun line => s!"   {String.ofList line}\n"
    s!"❌ {document.label}\n" ++ String.join below

end Document

namespace Verdict

-- The errors of a verdict in one text, if there are any.
def errors? : Verdict → Option String
  | valid => none
  | message text => if text.isEmpty then none else some text
  | map report =>
    if report.isEmpty then none
    else some (Json.object (report.map fun (path, text) => (path, .string text))).pretty

end Verdict

-- The paths of the inputs of a command. A glob pattern has to stand for one at least.
def expandInputs (files : Files) : List String → Except Failure (List String)
  | [] => .ok []
  | input :: rest =>
    let first : Except Failure (List String) :=
      if Glob.isGlob input then
        match files.expand input with
        | .error e => .error ⟨[e.message]⟩
        | .ok [] => .error ⟨[s!"glob pattern matched no files: {input}"]⟩
        | .ok paths => .ok paths
      else .ok [input]
    match first with
    | .error failure => .error failure
    | .ok paths => (expandInputs files rest).map (paths ++ ·)

namespace ValidateCommand

-- The options of a validation. The form of the errors is up to the command.
def loadOptions (command : ValidateCommand) (read : ReadFile) : Except Failure ValidateOptions :=
  match command.options with
  | none =>
    .ok
      { ignoreExtraneousKeys := command.ignoreExtraneousKeys
        returnAs := some command.returnAs }
  | some path =>
    match loadFile ValidateOptions.format read path with
    | .error e => .error (.of s!"failed to load options {path}" e.chain)
    | .ok options => .ok { options with returnAs := some command.returnAs }

def check (model : Model) (options : ValidateOptions) (document : Document) : Option String :=
  match model.validateWith options document.value with
  | .ok verdict => verdict.errors?
  | .error failure => some failure.message

-- What is printed for documents, and whether none of them has errors.
def reportAll (model : Model) (options : ValidateOptions) (documents : List Document) :
    CommandResult :=
  .print (String.join (documents.map fun document => document.report (check model options document)))
    (documents.all fun document => (check model options document).isNone)

def run (command : ValidateCommand) (files : Files) : Except Failure CommandResult :=
  match command.model.load files.read with
  | .error failure => .error failure
  | .ok model =>
    match command.loadOptions files.read with
    | .error failure => .error failure
    | .ok options =>
      match expandInputs files command.inputs with
      | .error failure => .error (.of "failed to resolve input file paths" failure.chain)
      | .ok paths => (Document.load command.byLine files.read paths).map (reportAll model options)

end ValidateCommand

namespace GenerateCommand

-- The value that stands for cycles, if one is given.
def loadOptions (command : GenerateCommand) (read : ReadFile) : Except Failure GenerateOptions :=
  match command.onRequiredCycle with
  | none => .ok {}
  | some argument =>
    match argument.load read with
    | .error e => .error (.of "invalid --on-required-cycle value" e.chain)
    | .ok value => .ok ⟨some value⟩

def run (command : GenerateCommand) (files : Files) : Except Failure CommandResult :=
  match command.model.load files.read with
  | .error failure => .error failure
  | .ok model =>
    match command.loadOptions files.read with
    | .error failure => .error failure
    | .ok options =>
      match model.generateWith options with
      | .error e => .error ⟨[e.message]⟩
      | .ok value =>
        match command.out with
        | some path => .ok (.save path value.pretty)
        | none => .ok (.print (value.pretty ++ "\n") true)

end GenerateCommand

def ReferencesCommand.run (command : ReferencesCommand) (files : Files) :
    Except Failure CommandResult :=
  (command.model.load files.read).map fun model =>
    .print ((model.referencesWith command.options).toJson.pretty ++ "\n") true

namespace Command

def run (files : Files) : Command → Except Failure CommandResult
  | validate command => command.run files
  | generate command => command.run files
  | references command => command.run files

def globs : Command → List String
  | validate command => command.inputs.filter Glob.isGlob
  | generate _ | references _ => []

-- The files that may have to be read.
def paths (files : Files) : Command → List String
  | validate command =>
    command.model.paths ++ command.options.toList ++
      match expandInputs files command.inputs with
      | .ok paths => paths
      | .error _ => []
  | generate command =>
    command.model.paths ++ (command.onRequiredCycle.bind ValueArgument.path?).toList
  | references command => command.model.paths

end Command

end JsonShape
