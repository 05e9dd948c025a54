
namespace JsonShape

-- The quanta in `1`.
def quantaPerOne : Nat := Nat.pow 2 1074

-- A number of quanta that a double holds: its low bits beyond the 53 leading ones are zero.
def Representable (quanta : Nat) : Prop :=
  Nat.pow 2 (quanta.log2 - 52) ∣ quanta ∧ quanta < Nat.pow 2 2098

instance : DecidablePred Representable :=
  fun _ => inferInstanceAs (Decidable (_ ∧ _))

theorem representable_zero : Representable 0 := by
  refine ⟨Nat.dvd_zero _, ?_⟩
  generalize 2098 = k
  exact Nat.two_pow_pos k

theorem quantaPerOne_pos : 0 < quantaPerOne := by
  unfold quantaPerOne
  generalize 1074 = k
  exact Nat.two_pow_pos k

-- The whole number nearest to `num / den`, a half to the even neighbour.
def divNearest (num den : Nat) : Nat :=
  let quotient := num / den
  let remainder := num % den
  if 2 * remainder < den then quotient
  else if den < 2 * remainder then quotient + 1
  else quotient + quotient % 2

theorem divNearest_mul_self (n : Nat) {den : Nat} (h : 0 < den) : divNearest (n * den) den = n := by
  simp [divNearest, h]

-- The double nearest to `num / den`, in quanta and without an upper limit.
def nearestQuanta (num den : Nat) : Nat :=
  let step := Nat.pow 2 ((num * quantaPerOne / den).log2 - 52)
  divNearest (num * quantaPerOne) (den * step) * step

-- A magnitude that needs no rounding stays as it is.
theorem nearestQuanta_quanta {quanta : Nat} (h : Representable quanta) :
    nearestQuanta quanta quantaPerOne = quanta := by
  obtain ⟨n, hn⟩ := h.1
  have hq := quantaPerOne_pos
  have hs : 0 < Nat.pow 2 (quanta.log2 - 52) := Nat.two_pow_pos _
  simp only [nearestQuanta, Nat.mul_div_cancel _ hq]
  generalize Nat.pow 2 (quanta.log2 - 52) = step at *
  subst hn
  rw [show step * n * quantaPerOne = n * (quantaPerOne * step) by
    rw [Nat.mul_comm step n, Nat.mul_assoc, Nat.mul_comm step]]
  rw [divNearest_mul_self n (Nat.mul_pos hq hs), Nat.mul_comm]

end JsonShape
