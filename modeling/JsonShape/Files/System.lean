import JsonShape.Files.Tree

namespace JsonShape

structure FileSystem (α : Type) where
  root : FileTree α
  -- The names that lead to the directory that relative paths start from.
  here : List String

namespace FileSystem

variable {α : Type}

-- The names that lead to where a path starts.
def origin (fs : FileSystem α) (path : String) : List String :=
  if isAbsolute path then [] else fs.here

-- The names that lead to the end of a path.
def locate (fs : FileSystem α) (path : String) : Except FileFault (List String) :=
  match pathFault? path with
  | some fault => .error fault
  | none => fs.root.walk (fs.origin path) (pathParts path)

def get (fs : FileSystem α) (path : String) : Except FileFault (FileTree α) :=
  match fs.locate path with
  | .error fault => .error fault
  | .ok names =>
    match fs.root.get? names with
    | some tree => .ok tree
    | none => .error .notFound

def contains (fs : FileSystem α) (path : String) : Bool :=
  match fs.get path with
  | .ok _ => true
  | .error _ => false

def isDirectory (fs : FileSystem α) (path : String) : Bool :=
  match fs.get path with
  | .ok tree => tree.isDirectory
  | .error _ => false

-- The entries of a directory, and none where there is no directory.
def entries (fs : FileSystem α) (path : String) : List (String × FileTree α) :=
  match fs.get path with
  | .ok tree => tree.entries
  | .error _ => []

def read (fs : FileSystem α) (path : String) : Except FileFault α :=
  match fs.get path with
  | .error fault => .error fault
  | .ok (.file content) => .ok content
  | .ok (.directory _) => .error .isDirectory

-- A place for an entry: the names that lead to its directory, and its own name.
structure Place where
  directory : List String
  name : String

def Place.names (place : Place) : List String :=
  place.directory ++ [place.name]

-- The place that a path describes. The directory has to be there. A path that does not end with a name
-- leads to a directory, and describes no place.
def place? (fs : FileSystem α) (path : String) : Except FileFault (Option Place) :=
  match pathFault? path with
  | some fault => .error fault
  | none =>
    match (pathParts path).reverse.dropWhile (· = "") with
    | [] => .ok none
    | name :: outer =>
      match fs.root.walk (fs.origin path) (outer.reverse ++ [""]) with
      | .error fault => .error fault
      | .ok directory => if name = "." ∨ name = ".." then .ok none else .ok (some { directory, name })

def set (fs : FileSystem α) (place : Place) (tree : FileTree α) : FileSystem α :=
  { fs with root := fs.root.set place.names tree }

-- Makes a directory inside another one that is there.
def makeDirectory (fs : FileSystem α) (path : String) : Except FileFault (FileSystem α) :=
  match fs.place? path with
  | .error fault => .error fault
  | .ok none => .error .alreadyExists
  | .ok (some place) =>
    if isLongName place.name then .error .nameTooLong
    else if (fs.root.get? place.names).isSome then .error .alreadyExists
    else .ok (fs.set place .empty)

-- Makes the first one of these directories. Each of them is inside the one behind it, which is made only if
-- it is missing.
def makeDirectories (fs : FileSystem α) : List String → Except FileFault (FileSystem α)
  | [] => .ok fs
  | path :: outer =>
    match fs.makeDirectory path with
    | .ok made => .ok made
    | .error fault =>
      if fault = .notFound then
        match makeDirectories fs outer with
        | .error fault => .error fault
        | .ok inside =>
          match inside.makeDirectory path with
          | .ok made => .ok made
          | .error fault => if inside.isDirectory path then .ok inside else .error fault
      else if fs.isDirectory path then .ok fs
      else .error fault

-- Writes a file into a directory that is there.
def write (fs : FileSystem α) (path : String) (content : α) : Except FileFault (FileSystem α) :=
  match fs.place? path with
  | .error fault => .error fault
  | .ok none => .error .isDirectory
  | .ok (some place) =>
    if endsWithSlash path then .error .isDirectory
    else if isLongName place.name then .error .nameTooLong
    else if (fs.root.get? place.names).any FileTree.isDirectory then .error .isDirectory
    else .ok (fs.set place (.file content))

-- Writes a file, with the directories that its path leads through.
def save (fs : FileSystem α) (path : String) (content : α) : Except SaveFault (FileSystem α) :=
  match fs.makeDirectories (pathDirectories path) with
  | .error fault => .error (.directory fault)
  | .ok made =>
    match made.write path content with
    | .error fault => .error (.file fault)
    | .ok saved => .ok saved

end FileSystem

end JsonShape
