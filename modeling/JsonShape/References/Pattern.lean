
namespace JsonShape

inductive Pattern
  | empty
  -- Match the empty text where the whole text starts and where it ends.
  | start
  | finish
  -- Matches a character inside one of the ranges, or outside of all of them.
  | one (inside : Bool) (ranges : List (Char × Char))
  | seq (first second : Pattern)
  | alt (first second : Pattern)
  | star (inner : Pattern)
  | plus (inner : Pattern)
deriving DecidableEq

namespace Pattern

def followedBy : Pattern → Pattern → Pattern
  | empty, q => q
  | p, q => seq p q

-- Does the pattern match the empty text at this place?
def isNullable (atStart atEnd : Bool) : Pattern → Bool
  | one .. => false
  | empty | star _ => true
  | start => atStart
  | finish => atEnd
  | seq p q => p.isNullable atStart atEnd && q.isNullable atStart atEnd
  | alt p q => p.isNullable atStart atEnd || q.isNullable atStart atEnd
  | plus p => p.isNullable atStart atEnd

-- Is the character where it has to be: inside one of the ranges, or outside of all of them?
def admits (inside : Bool) (ranges : List (Char × Char)) (x : Char) : Bool :=
  ranges.any (fun (low, high) => low ≤ x && x ≤ high) = inside

-- The patterns of which one has to match behind a character for this one to match in front of it.
def derivatives (atStart : Bool) (x : Char) : Pattern → List Pattern
  | empty | start | finish => []
  | one inside ranges => if admits inside ranges x then [empty] else []
  | seq p q =>
    let through := (p.derivatives atStart x).map (·.followedBy q)
    if p.isNullable atStart false then through ++ q.derivatives atStart x else through
  | alt p q => p.derivatives atStart x ++ q.derivatives atStart x
  | star p | plus p => (p.derivatives atStart x).map (·.followedBy (star p))

-- Does one of the current patterns match a text that starts here, or one of the others a text that starts
-- further on?
def anyMatches (atStart : Bool) (current others : List Pattern) : List Char → Bool
  | [] => current.any (isNullable atStart true)
  | x :: rest =>
    current.any (isNullable atStart false) ||
      anyMatches false (others ++ current.flatMap (derivatives atStart x)).eraseDups others rest

-- Does the pattern match a text that starts at the start of this one?
def matchesStart (p : Pattern) (text : String) : Bool :=
  anyMatches true [p] [] text.toList

-- Does the pattern match some part of the text?
def search (p : Pattern) (text : String) : Bool :=
  anyMatches true [p] [p] text.toList

-- What has been read of a group: its earlier alternatives, and the parts of the last one.
structure Group where
  earlier : Option Pattern := none
  -- The last part is in front.
  parts : List Pattern := []

namespace Group

def pattern (g : Group) : Pattern :=
  let last := g.parts.foldl (fun rest part => part.followedBy rest) empty
  match g.earlier with
  | none => last
  | some p => alt p last

def add (g : Group) (p : Pattern) : Group :=
  { g with parts := p :: g.parts }

def modify? (g : Group) (f : Pattern → Pattern) : Option Group :=
  match g.parts with
  | [] => none
  | p :: rest => some { g with parts := f p :: rest }

end Group

-- Reads a pattern inside these groups, the innermost one in front. Inside a class, its ranges so far are
-- given with whether they are wanted.
def read : List Char → (klass : Option (Bool × List (Char × Char))) → List Group → Option Pattern
  | [], none, [g] => some g.pattern
  | [], _, _ => none
  | _, _, [] => none
  | ']' :: rest, some (inside, ranges), g :: outer => read rest none (g.add (one inside ranges) :: outer)
  | low :: '-' :: high :: rest, some (inside, ranges), groups =>
    read rest (some (inside, (low, high) :: ranges)) groups
  | x :: rest, some (inside, ranges), groups => read rest (some (inside, (x, x) :: ranges)) groups
  | '[' :: '^' :: rest, none, groups => read rest (some (false, [])) groups
  | '[' :: rest, none, groups => read rest (some (true, [])) groups
  | '(' :: '?' :: ':' :: rest, none, groups | '(' :: rest, none, groups => read rest none ({} :: groups)
  | ')' :: rest, none, g :: g' :: outer => read rest none (g'.add g.pattern :: outer)
  | ')' :: _, none, _ => none
  | '|' :: rest, none, g :: outer => read rest none ({ earlier := g.pattern } :: outer)
  | '*' :: '?' :: rest, none, g :: outer | '*' :: rest, none, g :: outer =>
    (g.modify? star).bind fun g => read rest none (g :: outer)
  | '+' :: '?' :: rest, none, g :: outer | '+' :: rest, none, g :: outer =>
    (g.modify? plus).bind fun g => read rest none (g :: outer)
  | '?' :: '?' :: rest, none, g :: outer | '?' :: rest, none, g :: outer =>
    (g.modify? (alt empty)).bind fun g => read rest none (g :: outer)
  | '.' :: rest, none, g :: outer => read rest none (g.add (one false [('\n', '\n')]) :: outer)
  | '^' :: rest, none, g :: outer => read rest none (g.add start :: outer)
  | '$' :: rest, none, g :: outer => read rest none (g.add finish :: outer)
  | x :: rest, none, g :: outer => read rest none (g.add (one true [(x, x)]) :: outer)

def ofText? (text : String) : Option Pattern :=
  read text.toList none [{}]

end Pattern

end JsonShape
