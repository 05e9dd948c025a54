import Mathlib
import JsonShape.Proofs.Definition.Numeral
import JsonShape.Proofs.Node.LiteralValue
import JsonShape.Proofs.Number.Decimal

namespace JsonShape

section Digits

variable {n : Nat} {digits : List Char}

theorem head?_decimalDigits (h : n ≠ 0) : (decimalDigits n).head? ≠ some '0' := by
  induction n using Nat.strong_induction_on with
  | _ n hi =>
    rw [decimalDigits, Nat.toDigits_eq_if (by decide)]
    split
    case isTrue hn => interval_cases n <;> first | contradiction | decide
    case isFalse hn =>
      have hd : (decimalDigits (n / 10)).head? ≠ some '0' := hi (n / 10) (by omega) (by omega)
      rwa [List.head?_append_of_ne_nil _ Nat.toDigits_ne_nil]

theorem ofDecimalDigits_append_replicate {k : Nat} :
    ofDecimalDigits (digits ++ List.replicate k '0') = ofDecimalDigits digits * 10 ^ k := by
  rw [ofDecimalDigits, Nat.ofDigitChars_append, Nat.ofDigitChars_replicate_zero, Nat.mul_comm]
  rfl

theorem ofDecimalDigits_replicate_append {k : Nat} :
    ofDecimalDigits (List.replicate k '0' ++ digits) = ofDecimalDigits digits := by
  rw [ofDecimalDigits, Nat.ofDigitChars_append, Nat.ofDigitChars_replicate_zero, Nat.mul_zero]
  rfl

-- Digits that start with another one than zero.
structure IsSignificand (digits : List Char) : Prop where
  isDigit : ∀ x ∈ digits, x.isDigit
  ne_nil  : digits ≠ []
  head_ne : digits.head? ≠ some '0'

theorem isSignificand_decimalDigits (h : n ≠ 0) : IsSignificand (decimalDigits n) :=
  ⟨isDigit_of_mem_decimalDigits, decimalDigits_ne_nil, head?_decimalDigits h⟩

-- The zeros at the end of a significand are those in front of a significand.
theorem IsSignificand.exists_trimmed (h : IsSignificand digits) :
    IsSignificand (digits.reverse.dropWhile (· = '0')).reverse ∧
      ∃ k, digits = (digits.reverse.dropWhile (· = '0')).reverse ++ List.replicate k '0' := by
  have hz : ∀ x ∈ digits.reverse.takeWhile (· = '0'), x = '0' := fun x hx =>
    of_decide_eq_true (List.all_eq_true.mp List.all_takeWhile x hx)
  have hd : digits = (digits.reverse.dropWhile (· = '0')).reverse ++
      List.replicate (digits.reverse.takeWhile (· = '0')).length '0' := by
    rw [← List.reverse_replicate, ← List.eq_replicate_of_mem hz, ← List.reverse_append,
      List.takeWhile_append_dropWhile, List.reverse_reverse]
  generalize (digits.reverse.dropWhile (· = '0')).reverse = trimmed at hd
  generalize (digits.reverse.takeWhile (· = '0')).length = k at hd
  subst hd
  have hn : trimmed ≠ [] := by
    rintro rfl
    cases k with
    | zero => exact h.ne_nil rfl
    | succ k => exact h.head_ne rfl
  refine ⟨⟨fun x hx => h.isDigit x (List.mem_append_left _ hx), hn, fun hh => h.head_ne ?_⟩, k, rfl⟩
  rwa [List.head?_append_of_ne_nil _ hn]

end Digits

namespace Numeral

-- The decimal that a numeral writes.
def decimal (n : Numeral) : Decimal :=
  ⟨ofDecimalDigits (n.whole ++ n.fraction), -(n.fraction.length : Int)⟩

theorem value_eq_ofQuanta {n : Numeral} : n.value = .ofQuanta n.negative n.decimal.quanta :=
  rfl

end Numeral

namespace Decimal

variable {d : Decimal} {digits : List Char} {leading : Int}

-- The decimal of digits with the power of ten of the first one.
def ofLeading (digits : List Char) (leading : Int) : Decimal :=
  ⟨ofDecimalDigits digits, leading + 1 - digits.length⟩

theorem value_mul_pow {significand k : Nat} {exponent : Int} :
    (mk (significand * 10 ^ k) exponent).value = (mk significand (exponent + k)).value := by
  simp only [value]
  rw [zpow_add₀ (by decide), zpow_natCast]
  push_cast
  ring

theorem layout_of_neg (hl : -5 ≤ leading) (hn : leading < 0) :
    layout digits leading = '0' :: '.' :: (List.replicate (-leading - 1).toNat '0' ++ digits) := by
  rw [layout, if_neg (by omega), if_pos ⟨hl, hn⟩]
  rfl

theorem layout_of_length_le {k : Nat} (hu : leading < 16) (hk : leading + 1 = digits.length + k) (hn : digits ≠ []) :
    layout digits leading = digits ++ List.replicate k '0' ++ ['.', '0'] := by
  have hd := List.length_pos_iff.mpr hn
  have hw : leading.toNat + 1 = (digits ++ List.replicate k '0').length := by
    rw [List.length_append, List.length_replicate]
    omega
  have hr : leading.toNat + 1 - digits.length = k := by omega
  rw [layout, if_pos (by omega)]
  simp only [hr]
  rw [hw, List.take_length, List.drop_length]
  rfl

theorem layout_of_lt_length {k : Nat} (hu : leading < 16) (hk : leading + 1 = k) (hp : 0 < k)
    (hl : k < digits.length) : layout digits leading = digits.take k ++ '.' :: digits.drop k := by
  have hw : leading.toNat + 1 = k := by omega
  have hz : k - digits.length = 0 := by omega
  have hd : ¬(digits.drop k).isEmpty := by simpa using hl
  rw [layout, if_pos (by omega)]
  simp only [hw, hz, List.replicate_zero, List.append_nil, if_neg hd]

theorem exponent_mem_layout (h : leading < -5 ∨ 16 ≤ leading) : 'e' ∈ layout digits leading := by
  rw [layout, if_neg (by omega), if_neg (by omega)]
  simp

-- With a sign in front or not, the text is one of a numeral, and this has the value of the decimal.
def IsWritten (d : Decimal) (text : List Char) : Prop :=
  ∀ negative, ∃ n : Numeral, n.negative = negative ∧ n.whole ++ n.tail = text ∧ n.decimal.value = d.value

section Layout

variable {k : Nat}

theorem isDigit_of_mem_replicate : ∀ x ∈ List.replicate k '0', x.isDigit :=
  fun _ hx => List.eq_of_mem_replicate hx ▸ rfl

theorem isWritten_of_neg (h : IsSignificand digits) (hl : -5 ≤ leading) (hn : leading < 0) :
    (ofLeading digits leading).IsWritten (layout digits leading) := by
  intro negative
  refine ⟨⟨negative, ['0'], List.replicate (-leading - 1).toNat '0' ++ digits, by simp,
    List.forall_mem_append.mpr ⟨isDigit_of_mem_replicate, h.isDigit⟩, by simp, by simp⟩, rfl, ?text, ?value⟩
  case text => simp [layout_of_neg hl hn, Numeral.tail, h.ne_nil]
  case value =>
    have hw : ['0'] ++ (List.replicate (-leading - 1).toNat '0' ++ digits) =
        List.replicate ((-leading - 1).toNat + 1) '0' ++ digits := rfl
    have he : -((List.replicate (-leading - 1).toNat '0' ++ digits).length : Int) =
        leading + 1 - digits.length := by
      rw [List.length_append, List.length_replicate]
      omega
    rw [Numeral.decimal, hw, ofDecimalDigits_replicate_append, he, ofLeading]

theorem isWritten_of_length_le (h : IsSignificand digits) (hu : leading < 16) (hk : leading + 1 = digits.length + k) :
    (ofLeading digits leading).IsWritten (layout digits leading) := by
  intro negative
  have hh : (digits ++ List.replicate k '0').head? ≠ some '0' := by
    rw [List.head?_append_of_ne_nil _ h.ne_nil]
    exact h.head_ne
  refine ⟨⟨negative, digits ++ List.replicate k '0', ['0'],
    List.forall_mem_append.mpr ⟨h.isDigit, isDigit_of_mem_replicate⟩, by simp, by simp [h.ne_nil],
    fun he => absurd he hh⟩, rfl, ?text, ?value⟩
  case text => simp [layout_of_length_le hu hk h.ne_nil, Numeral.tail]
  case value =>
    have hw : digits ++ List.replicate k '0' ++ ['0'] = digits ++ List.replicate (k + 1) '0' := by
      rw [List.append_assoc, ← List.replicate_succ']
    have he : -((['0'] : List Char).length : Int) + (k + 1 : Nat) = leading + 1 - digits.length := by
      rw [List.length_singleton]
      omega
    rw [Numeral.decimal, hw, ofDecimalDigits_append_replicate, value_mul_pow, he, ofLeading]

theorem isWritten_of_lt_length (h : IsSignificand digits) (hu : leading < 16) (hk : leading + 1 = k) (hp : 0 < k)
    (hl : k < digits.length) : (ofLeading digits leading).IsWritten (layout digits leading) := by
  intro negative
  have hh : (digits.take k).head? ≠ some '0' := by
    rw [List.head?_take, if_neg hp.ne']
    exact h.head_ne
  have hn : digits.take k ≠ [] := by simp [h.ne_nil, hp.ne']
  refine ⟨⟨negative, digits.take k, digits.drop k, fun x hx => h.isDigit x (List.mem_of_mem_take hx),
    fun x hx => h.isDigit x (List.mem_of_mem_drop hx), hn, fun he => absurd he hh⟩, rfl, ?text, ?value⟩
  case text => simp [layout_of_lt_length hu hk hp hl, Numeral.tail, hl]
  case value =>
    have he : -((digits.drop k).length : Int) = leading + 1 - digits.length := by
      rw [List.length_drop]
      omega
    rw [Numeral.decimal, List.take_append_drop, he, ofLeading]

theorem isWritten_layout (h : IsSignificand digits) (hl : -5 ≤ leading) (hu : leading < 16) :
    (ofLeading digits leading).IsWritten (layout digits leading) := by
  rcases lt_or_ge leading 0 with hn | hp
  case inl => exact isWritten_of_neg h hl hn
  case inr =>
    obtain ⟨w, hw⟩ := Int.eq_ofNat_of_zero_le (show 0 ≤ leading + 1 by omega)
    rcases le_or_gt digits.length w with hlen | hlen
    case inl => exact isWritten_of_length_le (k := w - digits.length) h hu (by omega)
    case inr => exact isWritten_of_lt_length h hu hw (by omega) hlen

end Layout

-- The zeros at the end of the significand are not written.
theorem text_eq_layout (h : d.significand ≠ 0) :
    ∃ digits, IsSignificand digits ∧ d.text = layout digits (d.order - 1) ∧
      (ofLeading digits (d.order - 1)).value = d.value := by
  obtain ⟨ht, k, hk⟩ := (isSignificand_decimalDigits h).exists_trimmed
  refine ⟨_, ht, rfl, ?_⟩
  generalize ((decimalDigits d.significand).reverse.dropWhile (· = '0')).reverse = digits at ht hk
  have hs : d.significand = ofDecimalDigits digits * 10 ^ k := by
    rw [← ofDecimalDigits_append_replicate, ← hk, ofDecimalDigits_decimalDigits]
  have he : d.order - 1 + 1 - digits.length = d.exponent + k := by
    rw [order, hk, List.length_append, List.length_replicate]
    omega
  rw [ofLeading, he, ← value_mul_pow, ← hs]

theorem isWritten_text (h : d.significand ≠ 0) (hl : -5 < d.order) (hu : d.order ≤ 16) : d.IsWritten d.text := by
  obtain ⟨digits, hd, ht, hv⟩ := text_eq_layout h
  have hw : (ofLeading digits (d.order - 1)).IsWritten d.text :=
    ht ▸ isWritten_layout hd (by omega) (by omega)
  intro negative
  obtain ⟨n, hn, hw, hvalue⟩ := hw negative
  exact ⟨n, hn, hw, hvalue.trans hv⟩

theorem exponent_mem_text (h : d.order ≤ -5 ∨ 16 < d.order) : 'e' ∈ d.text :=
  exponent_mem_layout (by omega)

theorem quanta_whole {n : Nat} (h : (decimalDigits n).length ≤ 330) : (mk n 0).quanta = nearestQuanta n 1 := by
  by_cases hz : n = 0
  case pos =>
    subst hz
    rw [quanta_of_small (.inl rfl), nearestQuanta]
    simp [divNearest]
  case neg =>
    have ho : (mk n 0).order = (decimalDigits n).length := Int.zero_add _
    rw [quanta_of_order hz (by omega) (by omega), num, den]
    simp

end Decimal

-- Is the text one of a number, and of this one?
def ReadsNumber (text : List Char) (x : Double) : Prop :=
  isNumber text ∧ numberOfText text = x

theorem readsNumber_numeral (n : Numeral) : ReadsNumber n.text n.value :=
  ⟨n.isNumber_text, n.numberOfText_text⟩

theorem noLeadingZero_decimalDigits {n : Nat} (h : (decimalDigits n).head? = some '0') :
    decimalDigits n = ['0'] := by
  by_cases hn : n = 0
  case pos => exact hn ▸ rfl
  case neg => exact absurd h (head?_decimalDigits hn)

def Numeral.ofInt (n : Int) : Numeral where
  negative      := decide (n < 0)
  whole         := decimalDigits n.natAbs
  fraction      := []
  isDigit_whole := isDigit_of_mem_decimalDigits
  isDigit_frac  := List.forall_mem_nil _
  whole_ne_nil  := decimalDigits_ne_nil
  noLeadingZero := noLeadingZero_decimalDigits

theorem length_decimalDigits_integer64 (n : Integer64) : (decimalDigits n.val.natAbs).length ≤ 330 := by
  obtain ⟨n, hn⟩ := n
  refine ((length_decimalDigits_le_iff (k := 20) (by decide)).mpr ?_).trans (by decide)
  dsimp only
  omega

theorem readsNumber_integerText {n : Int} (h : (decimalDigits n.natAbs).length ≤ 330) :
    ReadsNumber (integerText n).toList (.ofInt n) := by
  have ht : (Numeral.ofInt n).text = (integerText n).toList := by
    simp [Numeral.text, Numeral.sign, Numeral.tail, Numeral.ofInt, integerText]
  have hv : (Numeral.ofInt n).value = .ofInt n := by
    simp only [Numeral.ofInt, Numeral.value, List.append_nil, ofDecimalDigits_decimalDigits, Double.ofInt]
    rw [← Decimal.quanta_whole h]
    rfl
  exact ht ▸ hv ▸ readsNumber_numeral (.ofInt n)

theorem readsNumber_binary64 {x : Binary64} (hn : x.quanta ≠ 0) (hl : -5 < (Decimal.shortest x.quanta).order)
    (hu : (Decimal.shortest x.quanta).order ≤ 16) : ReadsNumber x.text x.value := by
  have hs := Decimal.significand_shortest_ne_zero x.representable hn
  obtain ⟨n, hneg, ht, hv⟩ := Decimal.isWritten_text hs hl hu x.negative
  have htext : n.text = x.text := by
    rw [Numeral.text, Numeral.sign, hneg, List.append_assoc, ht, Binary64.text, if_neg hn]
  have hvalue : n.value = x.value := by
    rw [n.value_eq_ofQuanta, hneg, Decimal.quanta_congr hv, Decimal.quanta_shortest x.representable, Binary64.value]
  exact htext ▸ hvalue ▸ readsNumber_numeral n

end JsonShape
