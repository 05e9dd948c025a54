import JsonShape.CommandLine.Run

namespace JsonShape

-- The fault that the operating system reports.
def faultOf : IO.Error → FileFault
  | .noFileOrDirectory .. => .notFound
  | .alreadyExists .. => .alreadyExists
  | .inappropriateType _ code text | .permissionDenied _ code text
  | .resourceExhausted _ code text | .invalidArgument _ code text
  | .otherError code text | .resourceBusy code text | .hardwareFault code text =>
    .system code.toNat text
  | other => .system 0 other.toString

def readFile (path : String) : IO (Except FileFault String) := do
  if let some fault := pathFault? path then return .error fault
  try return fileText (← IO.FS.readBinFile path)
  catch e => return .error (faultOf e)

-- The files below a directory that a pattern can describe, by their names.
partial def listing (path : String) (parts : List GlobPart) : IO (FileTree Unit) := do
  let rest :=
    match parts with
    | .recursive :: _ => parts
    | _ => parts.tail
  if parts.isEmpty then return .empty
  let entries ← try (← IO.FS.realPath path).readDir catch _ => pure #[]
  let mut tree := .empty
  for entry in entries do
    let below ← if ← entry.path.isDir then listing entry.path.toString rest else pure (.file ())
    tree := tree.set [entry.fileName] below
  return tree

-- The names that lead to a directory.
def namesOf (path : String) : IO (List String) := do
  return (pathParts (← IO.FS.realPath path).toString).filter (· ≠ "")

-- The files around a command that a pattern can describe. Its leading names are followed before anything
-- is listed.
def snapshot (glob : Glob) : IO (FileSystem Unit) := do
  let here ← namesOf "."
  let root := FileTree.empty.set here .empty
  try
    let (start, parts) := glob.start
    return { root := root.set (← namesOf start) (← listing start parts), here }
  catch _ => return { root, here }

def expand (pattern : String) : IO (Except GlobError (List String)) := do
  match Glob.parse pattern with
  | .error e => return .error e
  | .ok glob => return .ok (glob.find (← snapshot glob))

-- Everything that a command sees of the files around it.
def gather (command : Command) : IO Files := do
  let expanded ← command.globs.mapM fun pattern => return (pattern, ← expand pattern)
  let files : Files :=
    { read := fun _ => .error .notFound
      expand := fun pattern => (expanded.lookup pattern).getD (.ok []) }
  let texts ← (command.paths files).mapM fun path => return (path, ← readFile path)
  return { files with read := fun path => (texts.lookup path).getD (.error .notFound) }

def save (path text : String) : IO (Except SaveFault Unit) := do
  try
    if let directory :: _ := pathDirectories path then IO.FS.createDirAll directory
  catch e => return .error (.directory (faultOf e))
  if let some fault := pathFault? path then return .error (.file fault)
  try
    IO.FS.writeFile path text
    return .ok ()
  catch e => return .error (.file (faultOf e))

def fail (failure : Failure) : IO UInt32 := do
  IO.eprintln s!"Error: {failure.message}"
  return 1

def usage : String :=
  "Usage: <COMMAND> --def <DEFINITION> [--typespace <FILE>] [OPTIONS]\n\n" ++
  "Commands:\n" ++
  "  validate    validate each input document against the definition\n" ++
  "  generate    print the minimal value of the definition\n" ++
  "  references  print the named types the definition references"

-- Prints or saves what a command gives.
def deliver (result : CommandResult) : IO UInt32 := do
  match result with
  | .print text _ => IO.print text
  | .save path text =>
    if let .error fault ← save path text then return ← fail (.ofSave path fault)
  return result.exitCode

def runWords (words : List String) : IO UInt32 := do
  match Command.parse words with
  | .error .displayHelp =>
    IO.println usage
    return 0
  | .error e =>
    IO.eprintln s!"error: {e.name}\n\n{usage}"
    return 2
  | .ok command =>
    match command.run (← gather command) with
    | .error failure => fail failure
    | .ok result => deliver result

end JsonShape

def main (words : List String) : IO UInt32 :=
  JsonShape.runWords words
