import Mathlib
import JsonShape.Node.Literal
import JsonShape.Proofs.Number.Decimal

namespace JsonShape

-- Doubles that are not whole are small.
theorem quantaPerOne_dvd_of_le {quanta : Nat} (h : Representable quanta)
    (hq : 9007199254740992 * quantaPerOne ≤ quanta) : quantaPerOne ∣ quanta := by
  obtain ⟨hd, -⟩ := h
  unfold quantaPerOne at *
  generalize 1074 = k at *
  have hk : 0 < Nat.pow 2 k := Nat.two_pow_pos k
  have hl : 53 + k ≤ quanta.log2 := (Nat.le_log2 (by omega)).mpr (by rwa [Nat.pow_add])
  exact (Nat.pow_dvd_pow 2 (by omega)).trans hd

namespace Decimal

variable {quanta : Nat}

def leastPositional : Decimal :=
  ⟨1, -5⟩

theorem quanta_leastPositional_lt :
    leastPositional.quanta < Nat.pow 2 2098 ∧ leastPositional.quanta < quantaPerOne := by
  decide +kernel

theorem order_shortest_leastPositional : (shortest leastPositional.quanta).order = -4 := by
  decide +kernel

theorem quanta_sixteen :
    (mk 1 16).quanta = 10000000000000000 * quantaPerOne ∧ (mk 1 16).quanta < Nat.pow 2 2098 := by
  decide +kernel

theorem value_one {exponent : Int} : (mk 1 exponent).value = 10 ^ exponent := by
  rw [value, Nat.cast_one, one_mul]

-- The least positional magnitude has one digit, so its order is not that of the smaller ones.
theorem lt_order_shortest_iff (h : Representable quanta) (hn : quanta ≠ 0) :
    -5 < (shortest quanta).order ↔ leastPositional.quanta ≤ quanta := by
  have hs := significand_shortest_ne_zero h hn
  have hq := quanta_shortest h
  constructor
  case mp =>
    intro ho
    have hv : ¬(shortest quanta).value < 10 ^ (-5 : Int) := fun hv => by
      have := (order_le_iff hs).mpr hv
      omega
    rw [← value_one, not_lt] at hv
    exact (quanta_mono hv quanta_leastPositional_lt.left).trans_eq hq
  case mpr =>
    intro hle
    by_contra ho
    have hv : (shortest quanta).value < 10 ^ (-5 : Int) := (order_le_iff hs).mp (by omega)
    rw [← value_one] at hv
    have hge : quanta ≤ leastPositional.quanta := hq ▸ quanta_mono hv.le (hq.symm ▸ h.2)
    have := order_shortest_leastPositional
    rw [← hle.antisymm hge] at ho
    omega

theorem order_shortest_le_iff (h : Representable quanta) (hn : quanta ≠ 0)
    (hw : quantaPerOne ∣ quanta → 9223372036854775808 * quantaPerOne < quanta) :
    (shortest quanta).order ≤ 16 ↔ quanta ≤ 9223372036854775808 * quantaPerOne := by
  have hs := significand_shortest_ne_zero h hn
  have hq := quanta_shortest h
  obtain ⟨hten, hlt⟩ := quanta_sixteen
  have hp := quantaPerOne_pos
  rw [order_le_iff hs, ← value_one]
  constructor
  case mp =>
    intro hv
    have hle : quanta ≤ 10000000000000000 * quantaPerOne :=
      calc quanta = (shortest quanta).quanta := hq.symm
        _ ≤ (mk 1 16).quanta := quanta_mono hv.le (hq.symm ▸ h.2)
        _ = 10000000000000000 * quantaPerOne := hten
    generalize quantaPerOne = one at *
    omega
  case mpr =>
    intro hle
    by_contra hv
    have hge : 10000000000000000 * quantaPerOne ≤ quanta :=
      calc 10000000000000000 * quantaPerOne = (mk 1 16).quanta := hten.symm
        _ ≤ (shortest quanta).quanta := quanta_mono (not_lt.mp hv) hlt
        _ = quanta := hq
    have hd := quantaPerOne_dvd_of_le h (by generalize quantaPerOne = one at *; omega)
    have := hw hd
    omega

end Decimal

namespace Double

-- Zero, or a number from `0.00001` to `2 ^ 63` with a sign or without.
def IsPositional : Double → Prop
  | .finite quanta _ =>
    quanta = 0 ∨
      Decimal.leastPositional.quanta ≤ quanta.natAbs ∧ quanta.natAbs ≤ 9223372036854775808 * quantaPerOne
  | .infinite => False

instance : DecidablePred IsPositional
  | .finite _ _ => inferInstanceAs (Decidable (_ ∨ _))
  | .infinite   => inferInstanceAs (Decidable False)

variable {x : Double}

theorem natAbs_eq_of_whole {quanta : Int} (h : quanta % quantaPerOne = 0) :
    quanta.natAbs = (quanta / quantaPerOne).natAbs * quantaPerOne := by
  rw [← natAbs_mul_quantaPerOne, Int.ediv_mul_cancel (Int.dvd_of_emod_eq_zero h)]

theorem isPositional_of_whole {quanta : Int} (hr : Representable quanta.natAbs) (hm : quanta % quantaPerOne = 0)
    (hw : (quanta / quantaPerOne).natAbs ≤ 9223372036854775808) : (finite quanta hr).IsPositional := by
  have hq := natAbs_eq_of_whole hm
  by_cases hz : quanta / quantaPerOne = 0
  case pos =>
    rw [hz, Int.natAbs_zero, Nat.zero_mul] at hq
    exact .inl (Int.natAbs_eq_zero.mp hq)
  case neg =>
    refine .inr ⟨Decimal.quanta_leastPositional_lt.right.le.trans ?_, ?_⟩
    · exact (Nat.le_mul_of_pos_left _ (Int.natAbs_pos.mpr hz)).trans_eq hq.symm
    · exact hq.trans_le (Nat.mul_le_mul_right _ hw)

theorem isPositional_of_toNumber?_integer {n : Integer64} (h : x.toNumber? = some (.integer n)) :
    x.IsPositional := by
  cases x with
  | infinite => cases h
  | finite quanta hr =>
    simp only [toNumber?] at h
    split at h
    case isFalse => cases h
    case isTrue hw => exact isPositional_of_whole hr hw.left (by omega)

-- What is not written as a whole number is a fraction, or too large.
theorem isPositional_iff_of_toNumber?_float {y : Binary64} (h : x.toNumber? = some (.float y)) :
    y.quanta ≠ 0 ∧
      (x.IsPositional ↔ -5 < (Decimal.shortest y.quanta).order ∧ (Decimal.shortest y.quanta).order ≤ 16) := by
  cases x with
  | infinite => cases h
  | finite quanta hr =>
    simp only [toNumber?] at h
    split at h
    case isTrue => cases h
    case isFalse hw =>
      cases h
      have hn : quanta ≠ 0 := by
        rintro rfl
        exact hw ⟨Int.zero_emod _, by rw [Int.zero_ediv]; decide⟩
      have hl : quantaPerOne ∣ quanta.natAbs → 9223372036854775808 * quantaPerOne < quanta.natAbs := by
        intro hd
        have hm : quanta % quantaPerOne = 0 := Int.emod_eq_zero_of_dvd (Int.natCast_dvd.mpr hd)
        have hlarge : ¬(quanta / quantaPerOne).natAbs ≤ 9223372036854775808 := fun hle =>
          hw ⟨hm, by omega, by omega⟩
        rw [natAbs_eq_of_whole hm]
        exact Nat.mul_lt_mul_of_pos_right (Nat.lt_of_not_le hlarge) quantaPerOne_pos
      have hz : quanta.natAbs ≠ 0 := Int.natAbs_ne_zero.mpr hn
      refine ⟨hz, ?_⟩
      rw [Decimal.lt_order_shortest_iff hr hz, Decimal.order_shortest_le_iff hr hz hl]
      exact or_iff_right hn

end Double

end JsonShape
