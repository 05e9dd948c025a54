import Mathlib
import JsonShape.Definition.Expression

namespace JsonShape

-- A number token: an optional minus sign, decimal digits without a leading zero, and an optional
-- fraction with at least one digit. No digits of a fraction means that there is no point.
structure Numeral where
  negative      : Bool
  whole         : List Char
  fraction      : List Char
  isDigit_whole : ∀ x ∈ whole, x.isDigit
  isDigit_frac  : ∀ x ∈ fraction, x.isDigit
  whole_ne_nil  : whole ≠ []
  noLeadingZero : whole.head? = some '0' → whole = ['0']

namespace Numeral

def sign (n : Numeral) : List Char :=
  if n.negative then ['-'] else []

def tail (n : Numeral) : List Char :=
  if n.fraction = [] then [] else '.' :: n.fraction

def text (n : Numeral) : List Char :=
  n.sign ++ n.whole ++ n.tail

-- The double nearest to the number that is written.
def value (n : Numeral) : Double :=
  .ofQuanta n.negative
    (Decimal.quanta ⟨ofDecimalDigits (n.whole ++ n.fraction), -(n.fraction.length : Int)⟩)

variable (n : Numeral)

theorem isDigit_dot : '.'.isDigit = false := rfl

theorem head?_text_eq_minus_iff : n.text.head? = some '-' ↔ n.negative := by
  obtain ⟨x, rest, hw⟩ := List.exists_cons_of_ne_nil n.whole_ne_nil
  have hd : x ≠ '-' := by
    rintro rfl
    exact absurd (n.isDigit_whole '-' (hw ▸ .head _)) (by decide)
  cases hn : n.negative <;> simp [text, sign, hn, hw, hd]

theorem filter_text : n.text.filter Char.isDigit = n.whole ++ n.fraction := by
  have hw := List.filter_eq_self.mpr n.isDigit_whole
  have hf := List.filter_eq_self.mpr n.isDigit_frac
  have hs : n.sign.filter Char.isDigit = [] := by
    rw [sign]
    split <;> rfl
  have ht : n.tail.filter Char.isDigit = n.fraction := by
    rw [tail]
    split
    case isTrue hn  => rw [hn]; rfl
    case isFalse => rw [List.filter_cons_of_neg (by decide), hf]
  rw [text, List.filter_append, List.filter_append, hs, hw, ht, List.nil_append]

-- No character in front of the fraction is a point.
theorem drop_text : (n.text.dropWhile (· ≠ '.')).drop 1 = n.fraction := by
  have hp : ∀ x ∈ n.sign ++ n.whole, x ≠ '.' := by
    refine List.forall_mem_append.mpr ⟨?_, fun x hx => ?_⟩
    · rw [sign]
      split <;> simp
    · rintro rfl
      exact absurd (n.isDigit_whole _ hx) (by decide)
  rw [text, List.dropWhile_append_of_pos (by simpa using hp), tail]
  split
  case isTrue hn => simp [hn]
  case isFalse   => simp

theorem numberOfText_text : numberOfText n.text = n.value := by
  have hn : decide (n.text.head? = some '-') = n.negative := by
    simp [head?_text_eq_minus_iff]
  simp only [numberOfText, hn, filter_text, drop_text, value]

theorem isFraction_tail : isFraction n.tail := by
  rw [tail]
  split
  case isTrue    => rfl
  case isFalse h => simpa [isFraction, h] using n.isDigit_frac

theorem isUnsignedNumber_text : isUnsignedNumber (n.whole ++ n.tail) := by
  have ht : n.tail.takeWhile Char.isDigit = [] ∧ n.tail.dropWhile Char.isDigit = n.tail := by
    rw [tail]
    split <;> simp [isDigit_dot]
  have hz : n.whole = ['0'] ∨ n.whole.head? ≠ some '0' := or_iff_not_imp_right.mpr fun h =>
    n.noLeadingZero (not_not.mp h)
  simp only [isUnsignedNumber, List.takeWhile_append_of_pos n.isDigit_whole,
    List.dropWhile_append_of_pos n.isDigit_whole, ht.left, ht.right, List.append_nil, n.isFraction_tail,
    Bool.and_true]
  simpa [n.whole_ne_nil] using hz

theorem isNumber_text : isNumber n.text := by
  have hu := n.isUnsignedNumber_text
  cases hn : n.negative with
  | true  => simpa [text, sign, hn, isNumber] using hu
  | false =>
    have hh := mt n.head?_text_eq_minus_iff.mp (by simp [hn])
    have ht : n.text = n.whole ++ n.tail := by simp [text, sign, hn]
    rw [ht] at hh ⊢
    rw [isNumber.eq_def]
    split
    case h_1 he => simp [he] at hh
    case h_2    => exact hu

theorem exists_tail {text : List Char} (h : isFraction text) :
    ∃ digits : List Char, (∀ x ∈ digits, x.isDigit) ∧
      text = if digits = [] then [] else '.' :: digits := by
  cases text with
  | nil => exact ⟨[], by simp, rfl⟩
  | cons x digits =>
    simp only [isFraction, Bool.and_eq_true, decide_eq_true_eq, Bool.not_eq_true', List.all_eq_true,
      List.isEmpty_eq_false_iff] at h
    obtain ⟨⟨rfl, hn⟩, hd⟩ := h
    exact ⟨digits, hd, (if_neg hn).symm⟩

theorem exists_of_isUnsignedNumber {text : List Char} (negative : Bool) (h : isUnsignedNumber text) :
    ∃ n : Numeral, n.negative = negative ∧ n.whole ++ n.tail = text := by
  simp only [isUnsignedNumber, Bool.and_eq_true, Bool.not_eq_true', Bool.or_eq_true, decide_eq_true_eq,
    List.isEmpty_eq_false_iff, bne_iff_ne] at h
  obtain ⟨⟨hw, hz⟩, hf⟩ := h
  obtain ⟨digits, hd, ht⟩ := exists_tail hf
  have hl : ∀ x ∈ text.takeWhile Char.isDigit, x.isDigit := List.all_eq_true.mp List.all_takeWhile
  refine ⟨⟨negative, _, digits, hl, hd, hw, fun h => hz.resolve_right (not_not.mpr h)⟩, rfl, ?_⟩
  rw [tail, ← ht, List.takeWhile_append_dropWhile]

theorem exists_of_isNumber {text : List Char} (h : isNumber text) : ∃ n : Numeral, n.text = text := by
  rw [isNumber.eq_def] at h
  split at h
  case h_1 =>
    obtain ⟨n, hn, rfl⟩ := exists_of_isUnsignedNumber true h
    exact ⟨n, by simp [Numeral.text, sign, hn]⟩
  case h_2 =>
    obtain ⟨n, hn, rfl⟩ := exists_of_isUnsignedNumber false h
    exact ⟨n, by simp [Numeral.text, sign, hn]⟩

end Numeral

end JsonShape
