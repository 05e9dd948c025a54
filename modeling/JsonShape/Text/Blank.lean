
namespace JsonShape

-- The first and the last character of each run of white space.
def blankRanges : List (Nat × Nat) :=
  [(0x9, 0xD), (0x20, 0x20), (0x85, 0x85), (0xA0, 0xA0), (0x1680, 0x1680), (0x2000, 0x200A),
   (0x2028, 0x2029), (0x202F, 0x202F), (0x205F, 0x205F), (0x3000, 0x3000)]

-- Does the character have the property `White_Space`?
def isBlank (x : Char) : Bool :=
  blankRanges.any fun (low, high) => low ≤ x.toNat && x.toNat ≤ high

def trimStart (text : List Char) : List Char :=
  text.dropWhile isBlank

def trimEnd (text : List Char) : List Char :=
  (text.reverse.dropWhile isBlank).reverse

def trim (text : List Char) : List Char :=
  trimEnd (trimStart text)

theorem length_dropWhile_le (p : Char → Bool) (text : List Char) :
    (text.dropWhile p).length ≤ text.length :=
  (List.dropWhile_sublist p).length_le

theorem length_trimEnd_le (text : List Char) : (trimEnd text).length ≤ text.length := by
  simpa [trimEnd] using length_dropWhile_le isBlank text.reverse

theorem length_trim_le (text : List Char) : (trim text).length ≤ text.length :=
  Nat.le_trans (length_trimEnd_le _) (length_dropWhile_le _ _)

-- The text without this end, if it ends so.
def dropEnd? (text ending : List Char) : Option (List Char) :=
  let (start, last) := (text.take (text.length - ending.length), text.drop (text.length - ending.length))
  if last = ending then some start else none

theorem eq_append_of_dropEnd? {text ending start : List Char} (h : dropEnd? text ending = some start) :
    text = start ++ ending := by
  simp only [dropEnd?] at h
  split at h
  · rename_i hl
    cases h
    conv => lhs; rw [← List.take_append_drop (text.length - ending.length) text, hl]
  · cases h

-- The lines of a text, without their ends. A text that ends with a line end has no line after it.
def lines : List Char → List (List Char)
  | [] => []
  | x :: rest =>
    if x = '\n' then [] :: lines rest
    else if x = '\r' ∧ rest.head? = some '\n' then lines rest
    else
      match lines rest with
      | [] => [[x]]
      | line :: more => (x :: line) :: more

end JsonShape
