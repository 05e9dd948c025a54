import JsonShape.Files.Path

namespace JsonShape

inductive FileTree (α : Type)
  | file (content : α)
  -- The entries in the order of their names.
  | directory (entries : List (String × FileTree α))

namespace FileTree

variable {α : Type}

def empty : FileTree α :=
  directory []

def isDirectory : FileTree α → Bool
  | directory _ => true
  | file _ => false

-- The entries of a directory. A file has none.
def entries : FileTree α → List (String × FileTree α)
  | directory entries => entries
  | file _ => []

-- Puts an entry where its name belongs, in place of one that has the name.
def setEntry (name : String) (tree : FileTree α) :
    List (String × FileTree α) → List (String × FileTree α)
  | [] => [(name, tree)]
  | (other, old) :: rest =>
    if name = other then (name, tree) :: rest
    else if name < other then (name, tree) :: (other, old) :: rest
    else (other, old) :: setEntry name tree rest

def get? : List String → FileTree α → Option (FileTree α)
  | [], tree => some tree
  | name :: rest, tree =>
    match tree.entries.lookup name with
    | some inner => inner.get? rest
    | none => none

-- Puts something at the end of these names, with all directories on the way.
def set (tree : FileTree α) (names : List String) (new : FileTree α) : FileTree α :=
  match names with
  | [] => new
  | name :: rest =>
    directory (setEntry name (((tree.entries.lookup name).getD empty).set rest new) tree.entries)

-- The names that lead to the end of a path, from the directory at the end of the names before.
def walk (root : FileTree α) (names : List String) : List String → Except FileFault (List String)
  | [] => .ok names
  | part :: rest =>
    match root.get? names with
    | none => .error .notFound
    | some (file _) => .error .notDirectory
    | some (directory _) =>
      if part = "" ∨ part = "." then walk root names rest
      else if part = ".." then walk root names.dropLast rest
      else if isLongName part then .error .nameTooLong
      else if (root.get? (names ++ [part])).isNone then .error .notFound
      else walk root (names ++ [part]) rest

end FileTree

end JsonShape
