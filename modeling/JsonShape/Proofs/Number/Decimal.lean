import Mathlib
import JsonShape.Number.Decimal
import JsonShape.Proofs.Number.Rounding

namespace JsonShape

section Digits

variable {n k : Nat}

theorem length_decimalDigits_le_iff (hk : 0 < k) : (decimalDigits n).length ≤ k ↔ n < 10 ^ k :=
  Nat.length_toDigits_le_iff (by decide) hk

theorem isDigit_of_mem_decimalDigits : ∀ x ∈ decimalDigits n, x.isDigit :=
  fun _ => Nat.isDigit_of_mem_toDigits (by decide) (by decide)

theorem decimalDigits_ne_nil : decimalDigits n ≠ [] :=
  Nat.toDigits_ne_nil

end Digits

namespace Decimal

variable {d d' : Decimal} {k : Int}

def value (d : Decimal) : ℚ :=
  d.significand * 10 ^ d.exponent

theorem value_eq_zero_iff : d.value = 0 ↔ d.significand = 0 := by
  simp [value, zpow_ne_zero]

def num (d : Decimal) : Nat :=
  d.significand * 10 ^ d.exponent.toNat

def den (d : Decimal) : Nat :=
  10 ^ (-d.exponent).toNat

theorem den_pos : 0 < d.den :=
  Nat.pow_pos (by decide)

theorem value_eq_div : d.value = d.num / d.den := by
  rw [value, num, den]
  rcases le_or_gt 0 d.exponent with h | h
  case inl =>
    have hp : ((10 : ℚ) ^ d.exponent) = 10 ^ d.exponent.toNat := by
      rw [← zpow_natCast, Int.toNat_of_nonneg h]
    have hz : (-d.exponent).toNat = 0 := by omega
    simp [hp, hz]
  case inr =>
    have hp : ((10 : ℚ) ^ d.exponent) = (10 ^ (-d.exponent).toNat)⁻¹ := by
      rw [← zpow_natCast, Int.toNat_of_nonneg (by omega), zpow_neg, inv_inv]
    have hz : d.exponent.toNat = 0 := by omega
    simp [hp, hz, div_eq_mul_inv]

theorem value_le_iff : d.value ≤ d'.value ↔ d.num * d'.den ≤ d'.num * d.den := by
  have h : (0 : ℚ) < d.den := Nat.cast_pos.mpr den_pos
  have h' : (0 : ℚ) < d'.den := Nat.cast_pos.mpr den_pos
  rw [value_eq_div, value_eq_div, div_le_div_iff₀ h h']
  exact_mod_cast Iff.rfl

theorem order_le_iff (h : d.significand ≠ 0) : d.order ≤ k ↔ d.value < 10 ^ k := by
  have hp : (0 : ℚ) < 10 ^ d.exponent := by positivity
  have hv : d.value < 10 ^ k ↔ (d.significand : ℚ) < 10 ^ (k - d.exponent) := by
    have hk : (10 : ℚ) ^ k = 10 ^ (k - d.exponent) * 10 ^ d.exponent := by
      rw [← zpow_add₀ (by decide), Int.sub_add_cancel]
    rw [value, hk, mul_lt_mul_iff_left₀ hp]
  have ho : d.order ≤ k ↔ ((decimalDigits d.significand).length : Int) ≤ k - d.exponent := by
    rw [order]
    omega
  rw [hv, ho]
  obtain hk | hk := le_or_gt (k - d.exponent) 0
  case inl =>
    have hl : 0 < (decimalDigits d.significand).length := Nat.length_toDigits_pos
    have hs : (1 : ℚ) ≤ d.significand := Nat.one_le_cast.mpr (Nat.pos_of_ne_zero h)
    have hz : (10 : ℚ) ^ (k - d.exponent) ≤ 1 := zpow_le_one_of_nonpos₀ (by norm_num) hk
    exact iff_of_false (by omega) (by linarith)
  case inr =>
    obtain ⟨j, hj⟩ := Int.eq_ofNat_of_zero_le hk.le
    rw [hj, zpow_natCast, Nat.cast_le, length_decimalDigits_le_iff (by omega)]
    exact_mod_cast Iff.rfl

theorem value_nonneg : 0 ≤ d.value := by
  rw [value]
  positivity

theorem significand_ne_zero_of_le (h : d.significand ≠ 0) (hv : d.value ≤ d'.value) : d'.significand ≠ 0 := by
  rw [ne_eq, ← value_eq_zero_iff] at h ⊢
  have hn : 0 < d.value := value_nonneg.lt_of_ne' h
  exact (hn.trans_le hv).ne'

-- Values of different orders are on different sides of a power of ten.
theorem order_mono (h : d.significand ≠ 0) (hv : d.value ≤ d'.value) : d.order ≤ d'.order := by
  have h' : d'.significand ≠ 0 := significand_ne_zero_of_le h hv
  exact (order_le_iff h).mpr (hv.trans_lt ((order_le_iff h').mp le_rfl))

theorem quanta_of_order (h : d.significand ≠ 0) (hl : -330 ≤ d.order) (hu : d.order ≤ 330) :
    d.quanta = nearestQuanta d.num d.den := by
  rw [quanta, if_neg (by omega), if_neg (by omega), num, den]
  split
  case isTrue =>
    have hz : (-d.exponent).toNat = 0 := by omega
    rw [hz]
    rfl
  case isFalse =>
    have hz : d.exponent.toNat = 0 := by omega
    rw [hz, Nat.pow_zero, Nat.mul_one]
    rfl

theorem quanta_of_small (h : d.significand = 0 ∨ d.order < -330) : d.quanta = 0 := by
  rw [quanta, if_pos h]

theorem quanta_of_large (h : d.significand ≠ 0) (hu : 330 < d.order) : d.quanta = Nat.pow 2 2098 := by
  rw [quanta, if_neg (by omega), if_pos hu]

theorem quanta_mono (hv : d.value ≤ d'.value) (hr : d.quanta < Nat.pow 2 2098) : d.quanta ≤ d'.quanta := by
  by_cases hs : d.significand = 0 ∨ d.order < -330
  case pos => exact quanta_of_small hs ▸ Nat.zero_le _
  case neg =>
    obtain ⟨h, hl⟩ := not_or.mp hs
    have h' := significand_ne_zero_of_le h hv
    have ho := order_mono h hv
    by_cases hu : 330 < d'.order
    case pos => exact quanta_of_large h' hu ▸ hr.le
    case neg =>
      rw [quanta_of_order h (by omega) (by omega), quanta_of_order h' (by omega) (by omega)]
      exact nearestQuanta_mono (value_le_iff.mp hv) den_pos den_pos

theorem quanta_congr (hv : d.value = d'.value) : d.quanta = d'.quanta := by
  by_cases h : d.significand = 0
  case pos =>
    have h' : d'.significand = 0 := value_eq_zero_iff.mp (hv ▸ value_eq_zero_iff.mpr h)
    rw [quanta_of_small (.inl h), quanta_of_small (.inl h')]
  case neg =>
    have h' := significand_ne_zero_of_le h hv.le
    have ho : d.order = d'.order := (order_mono h hv.le).antisymm (order_mono h' hv.ge)
    by_cases hl : d.order < -330
    case pos => rw [quanta_of_small (.inr hl), quanta_of_small (.inr (ho ▸ hl))]
    case neg =>
      by_cases hu : 330 < d.order
      case pos => rw [quanta_of_large h hu, quanta_of_large h' (ho ▸ hu)]
      case neg =>
        rw [quanta_of_order h (by omega) (by omega), quanta_of_order h' (by omega) (by omega)]
        have hm := value_le_iff.mp hv.le
        exact nearestQuanta_congr (hm.antisymm (value_le_iff.mp hv.ge)) den_pos den_pos

section Exact

variable {quanta one k : Nat}

theorem num_mul_eq_of_value_eq (hp : 0 < one) (hv : d.value = quanta / one) : d.num * one = quanta * d.den := by
  have ho : (one : ℚ) ≠ 0 := Nat.cast_ne_zero.mpr hp.ne'
  have hd : (d.den : ℚ) ≠ 0 := Nat.cast_ne_zero.mpr den_pos.ne'
  rw [value_eq_div, div_eq_div_iff hd ho] at hv
  exact_mod_cast hv

theorem significand_ne_zero_of_value_eq (hp : 0 < one) (hn : 0 < quanta) (hv : d.value = quanta / one) :
    d.significand ≠ 0 := by
  rw [ne_eq, ← value_eq_zero_iff, hv]
  exact (div_pos (Nat.cast_pos.mpr hn) (Nat.cast_pos.mpr hp)).ne'

theorem order_bounds (hp : 0 < one) (hn : 0 < quanta) (hl : one < 10 ^ (k + 1)) (hu : quanta < one * 10 ^ k)
    (hv : d.value = quanta / one) : -k ≤ d.order ∧ d.order ≤ k := by
  have ho : (0 : ℚ) < one := Nat.cast_pos.mpr hp
  have hs := significand_ne_zero_of_value_eq hp hn hv
  constructor
  case left =>
    by_contra hk
    have hv' : d.value < 10 ^ (-((k + 1 : Nat) : Int)) := (order_le_iff hs).mp (by omega)
    rw [hv, zpow_neg, zpow_natCast, div_lt_iff₀ ho, inv_mul_eq_div, lt_div_iff₀ (by positivity)] at hv'
    have hq : quanta * 10 ^ (k + 1) < one := by exact_mod_cast hv'
    exact absurd (hq.trans hl) (Nat.not_lt.mpr (Nat.le_mul_of_pos_left _ hn))
  case right =>
    rw [order_le_iff hs, hv, div_lt_iff₀ ho, zpow_natCast, mul_comm]
    exact_mod_cast hu

-- Decimals of larger orders are smaller than one quantum, or larger than all doubles.
theorem quantaPerOne_bounds : quantaPerOne < 10 ^ (330 + 1) ∧ Nat.pow 2 2098 ≤ quantaPerOne * 10 ^ 330 := by
  decide +kernel

theorem quanta_of_value_eq (h : Representable quanta) (hv : d.value = quanta / quantaPerOne) :
    d.quanta = quanta := by
  obtain ⟨hl, hu⟩ := quantaPerOne_bounds
  obtain rfl | hn := quanta.eq_zero_or_pos
  case inl =>
    rw [Nat.cast_zero, zero_div, value_eq_zero_iff] at hv
    exact quanta_of_small (.inl hv)
  case inr =>
    obtain ⟨hlow, hhigh⟩ := order_bounds quantaPerOne_pos hn hl (h.2.trans_le hu) hv
    rw [quanta_of_order (significand_ne_zero_of_value_eq quantaPerOne_pos hn hv) hlow hhigh]
    exact nearestQuanta_of_eq h (num_mul_eq_of_value_eq quantaPerOne_pos hv) den_pos

theorem value_scaled : (mk (quanta * Nat.pow 5 k) (-k)).value = quanta / (Nat.pow 2 k : Nat) := by
  simp only [value, Nat.pow_eq]
  rw [zpow_neg, zpow_natCast, show (10 : ℚ) = 2 * 5 by norm_num, mul_pow]
  push_cast
  field_simp

theorem value_exact : (exact quanta).value = quanta / quantaPerOne := by
  have hk : (-1074 : Int) = -((1074 : Nat) : Int) := rfl
  unfold exact quantaPerOne
  rw [hk]
  generalize 1074 = k
  exact value_scaled

-- All digits of a magnitude are enough.
theorem quanta_shortest (h : Representable quanta) : (shortest quanta).quanta = quanta := by
  rw [shortest]
  cases hf : (List.range 17).findSome? fun further =>
    (neighbours quanta (leadingExponent quanta - (further : Nat))).find? fun d => d.quanta = quanta with
  | none => exact quanta_of_value_eq h value_exact
  | some d =>
    obtain ⟨further, -, hd⟩ := List.exists_of_findSome?_eq_some hf
    simpa using List.find?_some hd

theorem significand_shortest_ne_zero (h : Representable quanta) (hn : quanta ≠ 0) :
    (shortest quanta).significand ≠ 0 :=
  fun hz => hn ((quanta_shortest h).symm.trans (quanta_of_small (.inl hz)))

end Exact

end Decimal

end JsonShape
