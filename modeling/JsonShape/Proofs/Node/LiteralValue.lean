import JsonShape.Node.Literal
import JsonShape.Proofs.Number.Rounding

namespace JsonShape

-- The largest whole number with a sign is rounded up to the power of two behind it.
theorem nearestQuanta_max :
    nearestQuanta 9223372036854775807 1 = 9223372036854775808 * quantaPerOne := by
  decide +kernel

namespace Double

theorem ofQuanta_natAbs {quanta : Int} (h : Representable quanta.natAbs) :
    ofQuanta (quanta < 0) quanta.natAbs = .finite quanta h := by
  simp only [ofQuanta, dif_pos h, finite.injEq]
  split
  case isTrue hn =>
    have hn : quanta < 0 := of_decide_eq_true hn
    omega
  case isFalse hn =>
    have hn : ¬quanta < 0 := mt decide_eq_true hn
    omega

theorem ofInt_eq_finite {n quanta : Int} (h : Representable quanta.natAbs)
    (hq : quanta = n * quantaPerOne) : ofInt n = .finite quanta h := by
  have hp : (0 : Int) < quantaPerOne := Int.natCast_pos.mpr quantaPerOne_pos
  have hn : quanta.natAbs = n.natAbs * quantaPerOne := by rw [hq, natAbs_mul_quantaPerOne]
  have hs : n < 0 ↔ quanta < 0 := by
    rw [hq, ← Int.mul_lt_mul_right hp, Int.zero_mul]
  simp only [ofInt, hs]
  rw [nearestQuanta_of_eq h (hn.symm.trans (Nat.mul_one _).symm) Nat.one_pos, ofQuanta_natAbs]

theorem ofInt_max {quanta : Int} (h : Representable quanta.natAbs)
    (hq : quanta = 9223372036854775808 * quantaPerOne) :
    ofInt 9223372036854775807 = .finite quanta h := by
  have hn : quanta.natAbs = 9223372036854775808 * quantaPerOne := by
    rw [hq, natAbs_mul_quantaPerOne,
      show (9223372036854775808 : Int).natAbs = 9223372036854775808 from rfl]
  have hs : ((9223372036854775807 : Int) < 0) ↔ quanta < 0 := by
    have : (0 : Int) ≤ quantaPerOne := Int.natCast_nonneg _
    omega
  simp only [ofInt, hs]
  rw [show (9223372036854775807 : Int).natAbs = 9223372036854775807 from rfl, nearestQuanta_max, ← hn,
    ofQuanta_natAbs]

theorem value_of_toNumber? {x : Double} {n : Json.Number} (h : x.toNumber? = some n) : n.value = x := by
  cases x with
  | infinite => cases h
  | finite quanta hr =>
    simp only [toNumber?] at h
    split at h
    case isFalse =>
      cases h
      exact ofQuanta_natAbs hr
    case isTrue hw =>
      cases h
      have hq : quanta = quanta / quantaPerOne * quantaPerOne :=
        (Int.ediv_mul_cancel (Int.dvd_of_emod_eq_zero hw.left)).symm
      by_cases hm : quanta / quantaPerOne = 9223372036854775808
      case pos =>
        simp only [Json.Number.value, hm]
        exact ofInt_max hr (hm ▸ hq)
      case neg =>
        have : min (quanta / quantaPerOne) 9223372036854775807 = quanta / quantaPerOne := by omega
        simp only [Json.Number.value, this]
        exact ofInt_eq_finite hr hq

theorem toNumber?_eq_none_iff {x : Double} : x.toNumber? = none ↔ x = .infinite := by
  constructor
  case mp =>
    intro h
    cases x with
    | infinite => rfl
    | finite =>
      simp only [toNumber?] at h
      split at h <;> cases h
  case mpr => rintro rfl; rfl

end Double

theorem Literal.admits_toJson {l : Literal} (h : l ≠ .number .infinite) : l.admits l.toJson := by
  cases l with
  | string s => simp [toJson, admits]
  | bool b   => simp [toJson, admits]
  | number x =>
    cases hx : x.toNumber? with
    | some n => simp [toJson, admits, hx, Double.value_of_toNumber? hx]
    | none   => exact absurd (congrArg number (Double.toNumber?_eq_none_iff.mp hx)) h

end JsonShape
