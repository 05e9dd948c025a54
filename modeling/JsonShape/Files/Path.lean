import JsonShape.Files.Fault

namespace JsonShape

-- The parts of a text between the separators. There is one more of them than there are separators.
def splitParts (separator : Char) : List Char → List (List Char)
  | [] => [[]]
  | x :: rest =>
    if x = separator then [] :: splitParts separator rest
    else
      match splitParts separator rest with
      | [] => [[x]]
      | part :: more => (x :: part) :: more

def pathParts (path : String) : List String :=
  (splitParts '/' path.toList).map String.ofList

def pathOfParts (parts : List String) : String :=
  "/".intercalate parts

def isAbsolute (path : String) : Bool :=
  path.toList.head? = some '/'

def endsWithSlash (path : String) : Bool :=
  path.toList.getLast? = some '/'

-- The number of bytes that a path may have.
def pathLimit : Nat := 4095

-- The number of bytes that the name of an entry may have.
def nameLimit : Nat := 255

def isLongName (name : String) : Bool :=
  nameLimit < name.utf8ByteSize

-- Why a path leads nowhere, whatever files there are.
def pathFault? (path : String) : Option FileFault :=
  if path.toList.contains '\x00' then some .nulInPath
  else if path.isEmpty then some .notFound
  else if pathLimit < path.utf8ByteSize then some .nameTooLong
  else none

-- Does the path stay in the directory that it starts from?
def isHere (path : String) : Bool :=
  match pathParts path with
  | "." :: rest => rest.all fun part => part = "" || part = "."
  | _ => false

def childPath (path part : String) : String :=
  if endsWithSlash path then path ++ part else path ++ "/" ++ part

-- The leading parts of a path that end where it goes on to another entry. A point counts at the start of
-- the path only.
def pathPrefixes (before : List String) : List String → List (List String)
  | [] => []
  | part :: rest =>
    let here := before ++ [part]
    if part = "" ∨ (part = "." ∧ before ≠ []) then pathPrefixes here rest
    else here :: pathPrefixes here rest

-- The directories that a path leads through, the last one first.
def pathDirectories (path : String) : List String :=
  ((pathPrefixes [] (pathParts path)).dropLast.map pathOfParts).reverse

end JsonShape
