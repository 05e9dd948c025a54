import JsonShape.Members

namespace JsonShape

inductive Segment
  | key (name : String)
  | index (i : Nat)
deriving DecidableEq

abbrev Path := List Segment

def Segment.text : Segment → String
  | key name => name
  | index i => s!"{i}"

-- The segments with a slash between each two of them. The root has no text.
def Path.text (path : Path) : String :=
  "/".intercalate (path.map Segment.text)

structure ValidationError where
  path : Path
  message : String
deriving DecidableEq

namespace ValidationError

def under (segment : Segment) (e : ValidationError) : ValidationError :=
  { e with path := segment :: e.path }

-- The error on its own, behind the path that it stands for.
def text (e : ValidationError) : String :=
  match e.path with
  | [] => e.message
  | [.index i] => s!"At index {i}, {e.message}"
  | path => s!"At path {path.text}, {e.message}"

-- The error on a line of its own among others.
def line (e : ValidationError) : String :=
  let path := if e.path.isEmpty then "/" else e.path.text
  s!"\n  {path}: {e.message}"

end ValidationError

namespace Report

-- All errors in one text. A single one stands on its own.
def text : List ValidationError → String
  | [] => ""
  | [e] => e.text
  | errors => "Encountered errors at the following paths:" ++ String.join (errors.map ValidationError.line)

-- Adds an error to those with the same path text, or at the end if there are none.
def insert (report : Members String) (e : ValidationError) : Members String :=
  let message := (report.lookup e.path.text).elim e.message fun earlier => earlier ++ "\n" ++ e.message
  Members.set e.path.text message report

-- The messages by path text, in the order of the first error of each path.
def byPath (errors : List ValidationError) : Members String :=
  errors.foldl insert []

end Report

end JsonShape
