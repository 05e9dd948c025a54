import Mathlib
import JsonShape.Number.Decimal

namespace JsonShape

theorem natAbs_mul_quantaPerOne {n : Int} : (n * quantaPerOne).natAbs = n.natAbs * quantaPerOne := by
  rw [Int.natAbs_mul, Int.natAbs_natCast]

section DivNearest

variable {num den num' den' k : Nat}

theorem div_le_divNearest : num / den ≤ divNearest num den := by
  simp only [divNearest]
  split_ifs <;> omega

theorem divNearest_le_succ : divNearest num den ≤ num / den + 1 := by
  simp only [divNearest]
  split_ifs <;> omega

theorem div_le_div_of_mul_le (h : num * den' ≤ num' * den) (hd : 0 < den) (hd' : 0 < den') :
    num / den ≤ num' / den' := by
  rw [Nat.le_div_iff_mul_le hd']
  refine Nat.le_of_mul_le_mul_right ?_ hd
  calc num / den * den' * den = num / den * den * den' := Nat.mul_right_comm ..
    _ ≤ num * den' := Nat.mul_le_mul_right _ (Nat.div_mul_le_self num den)
    _ ≤ num' * den := h

-- Of two quotients with the same whole part, the one with the smaller remainder is rounded down if the other is.
theorem divNearest_mono (h : num * den' ≤ num' * den) (hd : 0 < den) (hd' : 0 < den') :
    divNearest num den ≤ divNearest num' den' := by
  rcases (div_le_div_of_mul_le h hd hd').lt_or_eq with hq | hq
  case inl =>
    calc divNearest num den ≤ num / den + 1 := divNearest_le_succ
      _ ≤ num' / den' := hq
      _ ≤ divNearest num' den' := div_le_divNearest
  case inr =>
    have hr : num % den * den' ≤ num' % den' * den := by
      have hn := Nat.div_add_mod num den
      have hn' := Nat.div_add_mod num' den'
      rw [hq] at hn
      nlinarith
    -- If the smaller remainder is half of its denominator or more, then so is the other one.
    have hhalf : den ≤ 2 * (num % den) → den' ≤ 2 * (num' % den') := fun hh => by
      refine Nat.le_of_mul_le_mul_right ?_ hd
      nlinarith
    have hmore : den < 2 * (num % den) → den' < 2 * (num' % den') := fun hm => by
      refine Nat.lt_of_mul_lt_mul_right (a := den) ?_
      nlinarith
    simp only [divNearest, hq]
    split_ifs <;> omega

theorem divNearest_le (h : num ≤ k * den) (hd : 0 < den) : divNearest num den ≤ k := by
  have hm : divNearest num den ≤ divNearest (k * 1) 1 := divNearest_mono (by simpa using h) hd Nat.one_pos
  rwa [divNearest_mul_self k Nat.one_pos] at hm

theorem le_divNearest (h : k * den ≤ num) (hd : 0 < den) : k ≤ divNearest num den := by
  have hm : divNearest (k * 1) 1 ≤ divNearest num den := divNearest_mono (by simpa using h) Nat.one_pos hd
  rwa [divNearest_mul_self k Nat.one_pos] at hm

end DivNearest

-- The multiple of a power of two nearest to a quotient. The power is such that the multiple has 53 bits, or one.
def nearestOf53Bits (num den : Nat) : Nat :=
  divNearest num (den * Nat.pow 2 ((num / den).log2 - 52)) * Nat.pow 2 ((num / den).log2 - 52)

section Nearest

variable {num den num' den' bits : Nat}

-- No multiple goes beyond a power of two that is a multiple itself.
theorem nearestOf53Bits_le (hb : (num / den).log2 - 52 ≤ bits) (hd : 0 < den) (h : num ≤ 2 ^ bits * den) :
    nearestOf53Bits num den ≤ 2 ^ bits := by
  rw [nearestOf53Bits]
  generalize (num / den).log2 - 52 = k at hb
  have hs : 2 ^ bits = 2 ^ (bits - k) * 2 ^ k := by rw [← Nat.pow_add, Nat.sub_add_cancel hb]
  rw [hs] at h ⊢
  refine Nat.mul_le_mul_right _ (divNearest_le ?_ (Nat.mul_pos hd (Nat.two_pow_pos k)))
  rwa [Nat.pow_eq, Nat.mul_comm den, ← Nat.mul_assoc]

theorem le_nearestOf53Bits (hb : (num / den).log2 - 52 ≤ bits) (hd : 0 < den) (h : 2 ^ bits * den ≤ num) :
    2 ^ bits ≤ nearestOf53Bits num den := by
  rw [nearestOf53Bits]
  generalize (num / den).log2 - 52 = k at hb
  have hs : 2 ^ bits = 2 ^ (bits - k) * 2 ^ k := by rw [← Nat.pow_add, Nat.sub_add_cancel hb]
  rw [hs] at h ⊢
  refine Nat.mul_le_mul_right _ (le_divNearest ?_ (Nat.mul_pos hd (Nat.two_pow_pos k)))
  rwa [Nat.pow_eq, Nat.mul_comm den, ← Nat.mul_assoc]

-- Quotients that are rounded to multiples of different powers are on different sides of a power of two.
theorem nearestOf53Bits_mono (h : num * den' ≤ num' * den) (hd : 0 < den) (hd' : 0 < den') :
    nearestOf53Bits num den ≤ nearestOf53Bits num' den' := by
  have hq : num / den ≤ num' / den' := div_le_div_of_mul_le h hd hd'
  have hl : (num / den).log2 ≤ (num' / den').log2 := by
    simpa only [Nat.log2_eq_log_two] using Nat.log_mono_right hq
  by_cases hs : (num / den).log2 - 52 = (num' / den').log2 - 52
  case pos =>
    rw [nearestOf53Bits, nearestOf53Bits, hs]
    generalize (num' / den').log2 - 52 = k
    refine Nat.mul_le_mul_right _ (divNearest_mono ?_ ?_ ?_)
    · calc num * (den' * 2 ^ k) = num * den' * 2 ^ k := (Nat.mul_assoc ..).symm
        _ ≤ num' * den * 2 ^ k := Nat.mul_le_mul_right _ h
        _ = num' * (den * 2 ^ k) := Nat.mul_assoc ..
    · exact Nat.mul_pos hd (Nat.two_pow_pos k)
    · exact Nat.mul_pos hd' (Nat.two_pow_pos k)
  case neg =>
    have hn : num' / den' ≠ 0 := by
      intro hz
      simp [hz] at hs hl
      omega
    have hlow : 2 ^ (num' / den').log2 * den' ≤ num' :=
      (Nat.le_div_iff_mul_le hd').mp (Nat.log2_self_le hn)
    have hhigh : num ≤ 2 ^ (num' / den').log2 * den := by
      have ha : num / den < 2 ^ (num' / den').log2 := by
        by_cases hz : num / den = 0
        · exact hz ▸ Nat.two_pow_pos _
        · exact (Nat.log2_lt hz).mp (by omega)
      exact ((Nat.div_lt_iff_lt_mul hd).mp ha).le
    exact (nearestOf53Bits_le (by omega) hd hhigh).trans (le_nearestOf53Bits (by omega) hd' hlow)

theorem divNearest_le_of_53Bits (hd : 0 < den) :
    divNearest num (den * 2 ^ ((num / den).log2 - 52)) ≤ 2 ^ 53 := by
  refine divNearest_le ?_ (Nat.mul_pos hd (Nat.two_pow_pos _))
  have hq : num / den < 2 ^ (53 + ((num / den).log2 - 52)) :=
    Nat.lt_log2_self.trans_le (Nat.pow_le_pow_right Nat.two_pos (by omega))
  calc num ≤ 2 ^ (53 + ((num / den).log2 - 52)) * den := ((Nat.div_lt_iff_lt_mul hd).mp hq).le
    _ = 2 ^ 53 * (den * 2 ^ ((num / den).log2 - 52)) := by rw [Nat.pow_add, Nat.mul_assoc, Nat.mul_comm den]

-- A multiple that is rounded up to the next power of two has one bit more, but this bit alone is set.
theorem dvd_nearestOf53Bits (hd : 0 < den) :
    2 ^ ((nearestOf53Bits num den).log2 - 52) ∣ nearestOf53Bits num den := by
  have hm : divNearest num (den * 2 ^ ((num / den).log2 - 52)) ≤ 2 ^ 53 := divNearest_le_of_53Bits hd
  rw [nearestOf53Bits, Nat.pow_eq]
  generalize divNearest num (den * 2 ^ ((num / den).log2 - 52)) = multiple at hm
  generalize (num / den).log2 - 52 = k
  rcases hm.lt_or_eq with hlt | rfl
  case inl =>
    by_cases hz : multiple * 2 ^ k = 0
    case pos => exact hz ▸ Nat.dvd_zero _
    case neg =>
      have hl : (multiple * 2 ^ k).log2 < 53 + k := by
        rw [Nat.log2_lt hz, Nat.pow_add]
        exact Nat.mul_lt_mul_of_pos_right hlt (Nat.two_pow_pos k)
      exact (Nat.pow_dvd_pow 2 (by omega)).trans (Nat.dvd_mul_left ..)
  case inr =>
    rw [← Nat.pow_add, Nat.log2_two_pow]
    exact Nat.pow_dvd_pow 2 (by omega)

theorem representable_nearestQuanta (hd : 0 < den) (h : nearestQuanta num den < Nat.pow 2 2098) :
    Representable (nearestQuanta num den) :=
  ⟨dvd_nearestOf53Bits hd, h⟩

theorem nearestQuanta_mono (h : num * den' ≤ num' * den) (hd : 0 < den) (hd' : 0 < den') :
    nearestQuanta num den ≤ nearestQuanta num' den' := by
  refine nearestOf53Bits_mono ?_ hd hd'
  calc num * quantaPerOne * den' = num * den' * quantaPerOne := Nat.mul_right_comm ..
    _ ≤ num' * den * quantaPerOne := Nat.mul_le_mul_right _ h
    _ = num' * quantaPerOne * den := Nat.mul_right_comm ..

-- Only the value of a quotient matters.
theorem nearestQuanta_congr (h : num * den' = num' * den) (hd : 0 < den) (hd' : 0 < den') :
    nearestQuanta num den = nearestQuanta num' den' :=
  (nearestQuanta_mono h.le hd hd').antisymm (nearestQuanta_mono h.ge hd' hd)

theorem nearestQuanta_of_eq {quanta : Nat} (hr : Representable quanta)
    (h : num * quantaPerOne = quanta * den) (hd : 0 < den) : nearestQuanta num den = quanta :=
  (nearestQuanta_congr h hd quantaPerOne_pos).trans (nearestQuanta_quanta hr)

end Nearest

end JsonShape
