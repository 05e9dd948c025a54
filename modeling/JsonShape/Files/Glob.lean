import JsonShape.Files.System
import JsonShape.References.Pattern

namespace JsonShape

-- Why a pattern is refused, and the number of characters in front of the place.
inductive GlobError
  | range (position : Nat)
  | wildcards (position : Nat)
  | recursive (position : Nat)
deriving DecidableEq

def GlobError.message : GlobError → String
  | range position => s!"Pattern syntax error near position {position}: invalid range pattern"
  | wildcards position =>
    s!"Pattern syntax error near position {position}: " ++
      "wildcards are either regular `*` or recursive `**`"
  | recursive position =>
    s!"Pattern syntax error near position {position}: " ++
      "recursive wildcards must form a single path component"

inductive GlobToken
  | char (x : Char)
  | any
  | many
  -- Any number of directories.
  | recursive
  -- A character inside one of the ranges, or outside of all of them.
  | one (inside : Bool) (ranges : List (Char × Char))

namespace GlobToken

-- The ranges that the text between brackets writes.
def ranges : List Char → List (Char × Char)
  | low :: '-' :: high :: rest => (low, high) :: ranges rest
  | x :: rest => (x, x) :: ranges rest
  | [] => []

-- The text between the brackets, behind the opening one, with the text behind them. The first character of
-- a set may be a bracket.
def bracket? : List Char → Option (GlobToken × List Char)
  | '!' :: x :: rest =>
    if rest.contains ']' then
      some (one false (ranges (x :: rest.takeWhile (· ≠ ']'))), (rest.dropWhile (· ≠ ']')).tail)
    else none
  | x :: rest =>
    if x ≠ '!' ∧ rest.contains ']' then
      some (one true (ranges (x :: rest.takeWhile (· ≠ ']'))), (rest.dropWhile (· ≠ ']')).tail)
    else none
  | [] => none

theorem length_of_bracket? {text rest : List Char} {token : GlobToken}
    (h : bracket? text = some (token, rest)) : rest.length < text.length := by
  have hd (l : List Char) : (l.dropWhile (· ≠ ']')).tail.length ≤ l.length := by
    have := (List.dropWhile_sublist (· ≠ ']') (l := l)).length_le
    simp only [List.length_tail]
    omega
  unfold bracket? at h
  split at h
  · next x rest =>
    split at h <;> cases h
    have := hd rest
    simp only [List.length_cons]
    omega
  · next x rest _ =>
    split at h <;> cases h
    have := hd rest
    simp only [List.length_cons]
    omega
  · cases h

-- The tokens of a pattern from this position on. Two asterisks have to be all that stands between two
-- slashes.
def read (position : Nat) (atStart : Bool) (text : List Char) : Except GlobError (List GlobToken) :=
  match text with
  | [] => .ok []
  | '?' :: rest => (read (position + 1) false rest).map (any :: ·)
  | '*' :: '*' :: '*' :: _ => .error (.wildcards (position + 2))
  | '*' :: '*' :: rest =>
    if ¬atStart then .error (.recursive (position - 1))
    else
      match rest with
      | [] => .ok [recursive]
      | '/' :: rest => (read (position + 3) true rest).map (recursive :: ·)
      | _ => .error (.recursive (position + 2))
  | '*' :: rest => (read (position + 1) false rest).map (many :: ·)
  | '[' :: rest =>
    match h : bracket? rest with
    | none => .error (.range position)
    | some (token, next) =>
      have := length_of_bracket? h
      (read (position + (rest.length - next.length) + 1) false next).map (token :: ·)
  | x :: rest => (read (position + 1) (x = '/') rest).map (char x :: ·)
termination_by text.length

-- The characters, if there are no other tokens.
def literal? (tokens : List GlobToken) : Option (List Char) :=
  tokens.mapM fun
    | char x => some x
    | _ => none

def pattern : GlobToken → Pattern
  | char x => .one true [(x, x)]
  | any => .one false []
  | many | recursive => .star (.one false [])
  | one inside ranges => .one inside ranges

end GlobToken

-- What one part of a path has to be.
inductive GlobPart
  | literal (name : String)
  | recursive
  -- The pattern of the whole name. The parts `.` and `..` are tried only if it starts with a point.
  | wild (startsWithPoint : Bool) (pattern : Pattern)

namespace GlobPart

def ofTokens (tokens : List GlobToken) : GlobPart :=
  match GlobToken.literal? tokens, tokens with
  | some name, _ => literal (String.ofList name)
  | none, .recursive :: _ => recursive
  | none, .char '.' :: _ => wild true (whole tokens)
  | none, _ => wild false (whole tokens)
where
  whole (tokens : List GlobToken) : Pattern :=
    tokens.foldr (fun token rest => token.pattern.followedBy rest) .finish

def isRecursive : GlobPart → Bool
  | recursive => true
  | _ => false

def admits : GlobPart → String → Bool
  | literal name, other => name = other
  | recursive, _ => true
  | wild _ pattern, name => pattern.matchesStart name

end GlobPart

structure Glob where
  -- Does the pattern start with a slash?
  absolute : Bool
  parts : List GlobPart
  -- Does the pattern end with a slash, so that it is for directories only?
  directoriesOnly : Bool

namespace Glob

-- Does a path have a character that makes it a pattern?
def isGlob (path : String) : Bool :=
  path.toList.any fun x => x = '*' || x = '?' || x = '[' || x = '\x7b'

-- The pattern that a text writes. The text as a whole is looked at before its parts are.
def parse (text : String) : Except GlobError Glob :=
  let absolute : Bool := text.toList.head? = some '/'
  let directoriesOnly : Bool := text.toList.getLast? = some '/'
  let parts := splitParts '/' (if absolute then text.toList.tail else text.toList)
  match GlobToken.read 0 true text.toList with
  | .error e => .error e
  | .ok _ =>
    match (if directoriesOnly then parts.dropLast else parts).mapM (GlobToken.read 0 true) with
    | .error e => .error e
    | .ok tokens => .ok { absolute, parts := tokens.map GlobPart.ofTokens, directoriesOnly }

-- The path of an entry of a directory. What is in the directory that paths start from has no text in front
-- of its name.
def entryPath (path name : String) : String :=
  if isHere path then name else childPath path name

def origin (glob : Glob) : String :=
  if glob.absolute then "/" else "."

-- The directory that the leading names of a pattern lead to, and the parts behind them. The last part is
-- always one of these.
def start (glob : Glob) : String × List GlobPart :=
  go glob.origin glob.parts
where
  go (path : String) : List GlobPart → String × List GlobPart
    | .literal name :: part :: rest => go (entryPath path name) (part :: rest)
    | parts => (path, parts)

section Find

variable {α : Type} (fs : FileSystem α) (directoriesOnly : Bool)

mutual

-- The paths below this one that the parts describe. A name is looked up. For anything else the directory
-- is listed, behind the ways up and back to it.
def findFrom (path : String) (parts : List GlobPart) : List String :=
  match parts with
  | [] => if directoriesOnly && !fs.isDirectory path then [] else [path]
  | .literal name :: rest =>
    if fs.contains (entryPath path name) then findFrom (entryPath path name) rest else []
  | part :: rest =>
    if fs.isDirectory path then
      let points :=
        match part with
        | .wild true pattern =>
          (if pattern.matchesStart ".." then findFrom (childPath path "..") rest else []) ++
            if pattern.matchesStart "." then findFrom (childPath path ".") rest else []
        | _ => []
      points ++ findAmong path part rest (fs.entries path)
    else []
termination_by (parts.length, 1, 0)

-- The paths among the entries of a directory that the parts describe, the first of which is not a
-- literal.
def findAmong (path : String) (part : GlobPart) (rest : List GlobPart)
    (entries : List (String × FileTree α)) : List String :=
  match entries with
  | [] => []
  | (name, tree) :: others =>
    let here := entryPath path name
    let found :=
      if part.isRecursive then
        let below :=
          match tree with
          | .directory entries => findAmong here part rest entries
          | .file _ => []
        match h : rest.dropWhile GlobPart.isRecursive with
        | [] => if tree.isDirectory then here :: below else []
        | next :: later =>
          have : later.length < rest.length := by
            have := (List.dropWhile_sublist GlobPart.isRecursive (l := rest)).length_le
            simp only [h, List.length_cons] at this
            omega
          (if next.admits name then findFrom here later else []) ++ below
      else if part.admits name then findFrom here rest
      else []
    found ++ findAmong path part rest others
termination_by (rest.length + 1, 0, sizeOf entries)

end

end Find

def find {α : Type} (glob : Glob) (fs : FileSystem α) : List String :=
  findFrom fs glob.directoriesOnly glob.origin glob.parts

end Glob

end JsonShape
