
namespace JsonShape

-- Where a scan stands: inside a quote or not, and how deep in parentheses.
structure Scan where
  depth : Nat := 0
  quote : Option Char := none
deriving DecidableEq

namespace Scan

def isOutside (s : Scan) : Bool :=
  s.depth = 0 && s.quote.isNone

-- Goes past a character. A closing parenthesis needs an open one.
def step (s : Scan) (x : Char) : Option Scan :=
  match s.quote with
  | some q => some (if x = q then { s with quote := none } else s)
  | none =>
    if x = '\'' ∨ x = '"' then some { s with quote := some x }
    else if x = '(' then some { s with depth := s.depth + 1 }
    else if x = ')' then if s.depth = 0 then none else some { s with depth := s.depth - 1 }
    else some s

def run (s : Scan) (text : List Char) : Option Scan :=
  text.foldlM step s

-- Cuts the text at the bars outside of quotes and parentheses: the first part and the others.
def split (s : Scan) : List Char → Option (List Char × List (List Char))
  | [] => if s.isOutside then some ([], []) else none
  | x :: rest =>
    if x = '|' ∧ s.isOutside then
      (split s rest).map fun (first, others) => ([], first :: others)
    else
      (s.step x).bind fun next =>
        (split next rest).map fun (first, others) => (x :: first, others)

end Scan

-- Is every quote and every parenthesis of the text closed, and none closed that was not open?
def isBalanced (text : List Char) : Bool :=
  (Scan.run {} text).any Scan.isOutside

-- The members of a union expression, if the text is balanced: the first one and the others.
def splitUnion? (text : List Char) : Option (List Char × List (List Char)) :=
  Scan.split {} text

-- What stands between two parentheses that enclose the whole text and belong together.
def groupBody? (text : List Char) : Option (List Char) :=
  match text with
  | '(' :: rest =>
    if rest.getLast? = some ')' ∧ isBalanced rest.dropLast then some rest.dropLast else none
  | _ => none

theorem eq_of_groupBody? {text body : List Char} (h : groupBody? text = some body) :
    text = '(' :: body ++ [')'] := by
  simp only [groupBody?] at h
  split at h
  · split at h
    case isTrue hr =>
      cases h
      obtain ⟨body, rfl⟩ := List.getLast?_eq_some_iff.mp hr.1
      simp
    case isFalse => cases h
  · cases h

-- The parts, with one bar between each two of them, are as long as the text.
theorem Scan.length_of_split {s : Scan} {text first : List Char} {others : List (List Char)}
    (h : s.split text = some (first, others)) :
    (first :: others).flatten.length + others.length = text.length := by
  induction text generalizing s first others with
  | nil =>
    simp only [split] at h
    split at h <;> simp_all
  | cons x rest hi =>
    simp only [split] at h
    split at h
    · simp only [Option.map_eq_some_iff, Prod.mk.injEq] at h
      obtain ⟨⟨f, o⟩, hs, rfl, rfl⟩ := h
      have := hi hs
      simp only [List.flatten_cons, List.length_append, List.length_nil, List.length_cons] at *
      omega
    · simp only [Option.bind_eq_some_iff, Option.map_eq_some_iff, Prod.mk.injEq] at h
      obtain ⟨next, -, ⟨f, o⟩, hs, rfl, rfl⟩ := h
      have := hi hs
      simp only [List.flatten_cons, List.length_append, List.length_cons] at *
      omega

end JsonShape
