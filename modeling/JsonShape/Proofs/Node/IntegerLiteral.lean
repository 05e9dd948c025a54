import Mathlib
import JsonShape.Model
import JsonShape.Proofs.Node.LiteralValue
import JsonShape.Proofs.Validation.Acceptance

namespace JsonShape

namespace Integer64

-- A double holds the number: its low bits beyond the 53 leading ones are zero.
def IsExact (n : Integer64) : Prop :=
  Nat.pow 2 (n.val.natAbs.log2 - 52) ∣ n.val.natAbs

instance : DecidablePred IsExact :=
  fun _ => inferInstanceAs (Decidable (_ ∣ _))

-- The least number of 64 bits with a sign.
def least : Integer64 where
  val := -9223372036854775808

variable {n m : Integer64}

theorem natAbs_lt (n : Integer64) : n.val.natAbs < 18446744073709551616 := by
  obtain ⟨n, hl, hu⟩ := n
  dsimp only
  omega

theorem eq_of_val_eq (h : n.val = m.val) : n = m := by
  cases n
  cases m
  cases h
  rfl

theorem isExact_of_natAbs_lt (h : n.val.natAbs < 9007199254740992) : n.IsExact := by
  have hl : n.val.natAbs.log2 - 52 = 0 := by
    by_cases hz : n.val.natAbs = 0
    case pos => rw [hz]; rfl
    case neg =>
      have := (Nat.log2_lt (k := 53) hz).mpr h
      omega
  rw [IsExact, hl]
  exact Nat.one_dvd _

end Integer64

section Whole

variable {n bits : Nat}

theorem whole_lt (h : n ≤ 18446744073709551616) : n * quantaPerOne < Nat.pow 2 2098 := by
  have hq : 18446744073709551616 * quantaPerOne < Nat.pow 2 2098 := by decide +kernel
  exact (Nat.mul_le_mul_right _ h).trans_lt hq

theorem log2_mul_pow (hn : n ≠ 0) : (n * 2 ^ bits).log2 = n.log2 + bits := by
  induction bits with
  | zero => rw [Nat.pow_zero, Nat.mul_one, Nat.add_zero]
  | succ bits hi =>
    have hz : n * 2 ^ bits ≠ 0 := Nat.mul_ne_zero hn (Nat.two_pow_pos bits).ne'
    rw [Nat.pow_succ, ← Nat.mul_assoc, Nat.mul_comm, Nat.log2_two_mul hz, hi, Nat.add_assoc]

theorem representable_whole_iff (hn : n ≤ 18446744073709551616) :
    Representable (n * quantaPerOne) ↔ Nat.pow 2 (n.log2 - 52) ∣ n := by
  rw [Representable, and_iff_left (whole_lt hn)]
  by_cases hz : n = 0
  case pos => simp only [hz, Nat.zero_mul, Nat.dvd_zero]
  case neg =>
    unfold quantaPerOne
    have hk : 52 ≤ 1074 := by decide
    generalize 1074 = k at hk ⊢
    rw [Nat.pow_eq, Nat.pow_eq, Nat.pow_eq, log2_mul_pow hz]
    rcases le_total 52 n.log2 with hl | hl
    case inl =>
      rw [Nat.sub_add_comm hl, Nat.pow_add]
      exact Nat.mul_dvd_mul_iff_right (Nat.two_pow_pos k)
    case inr =>
      have hw : 2 ^ (n.log2 + k - 52) ∣ n * 2 ^ k :=
        (Nat.pow_dvd_pow 2 (by omega)).trans (Nat.dvd_mul_left ..)
      rw [Nat.sub_eq_zero_of_le hl]
      exact iff_of_true hw (Nat.one_dvd n)

theorem nearestQuanta_whole (h : Representable (n * quantaPerOne)) : nearestQuanta n 1 = n * quantaPerOne :=
  nearestQuanta_of_eq h (Nat.mul_one _).symm Nat.one_pos

end Whole

namespace Double

variable {n m : Integer64}

-- The exact numbers are those that rounding leaves as they are.
theorem isExact_iff : n.IsExact ↔ ∃ hr, ofInt n.val = .finite (n.val * quantaPerOne) hr := by
  rw [Integer64.IsExact, ← representable_whole_iff n.natAbs_lt.le, ← natAbs_mul_quantaPerOne]
  exact ⟨fun hr => ⟨hr, ofInt_eq_finite hr rfl⟩, fun ⟨hr, _⟩ => hr⟩

theorem ofInt_inj_of_isExact (hn : n.IsExact) (hm : m.IsExact) : ofInt n.val = ofInt m.val ↔ n = m := by
  constructor
  case mp =>
    intro h
    obtain ⟨_, hn⟩ := isExact_iff.mp hn
    obtain ⟨_, hm⟩ := isExact_iff.mp hm
    have hq : n.val * quantaPerOne = m.val * quantaPerOne := by
      rw [hn, hm] at h
      exact (finite.inj h)
    have hp : (quantaPerOne : Int) ≠ 0 := Int.natCast_ne_zero.mpr quantaPerOne_pos.ne'
    exact Integer64.eq_of_val_eq (Int.eq_of_mul_eq_mul_right hp hq)
  case mpr => rintro rfl; rfl

theorem nearestQuanta_largest_lt : nearestQuanta 18446744073709551616 1 < Nat.pow 2 2098 := by
  decide +kernel

theorem nearestQuanta_integer64_lt (n : Integer64) : nearestQuanta n.val.natAbs 1 < Nat.pow 2 2098 :=
  (nearestQuanta_mono (Nat.mul_le_mul_right 1 n.natAbs_lt.le) Nat.one_pos Nat.one_pos).trans_lt
    nearestQuanta_largest_lt

-- No whole number of 64 bits is too large for a double.
theorem exists_ofInt (n : Integer64) :
    ∃ quanta hr, ofInt n.val = .finite quanta hr ∧ quanta.natAbs = nearestQuanta n.val.natAbs 1 := by
  have hr := representable_nearestQuanta Nat.one_pos (nearestQuanta_integer64_lt n)
  rw [ofInt, ofQuanta, dif_pos hr]
  refine ⟨_, _, rfl, ?_⟩
  split
  · exact (Int.natAbs_neg _).trans (Int.natAbs_natCast _)
  · exact Int.natAbs_natCast _

-- A number of more than 53 bits is not rounded to one with less.
theorem ofInt_inj_of_natAbs_lt (hn : n.val.natAbs < 9007199254740992) : ofInt n.val = ofInt m.val ↔ n = m := by
  have he := Integer64.isExact_of_natAbs_lt hn
  by_cases hm : m.val.natAbs < 9007199254740992
  case pos => exact ofInt_inj_of_isExact he (Integer64.isExact_of_natAbs_lt hm)
  case neg =>
    refine iff_of_false (fun h => ?_) (fun h => hm (h ▸ hn))
    obtain ⟨hr, he⟩ := isExact_iff.mp he
    obtain ⟨quanta, _, hq, hmagnitude⟩ := exists_ofInt m
    have hw : nearestQuanta 9007199254740992 1 = 9007199254740992 * quantaPerOne :=
      nearestQuanta_whole ((representable_whole_iff (by decide)).mpr (by decide))
    have hle : 9007199254740992 * quantaPerOne ≤ nearestQuanta m.val.natAbs 1 :=
      hw ▸ nearestQuanta_mono (Nat.mul_le_mul_right 1 (not_lt.mp hm)) Nat.one_pos Nat.one_pos
    have hs : n.val * quantaPerOne = quanta := by
      rw [he, hq] at h
      exact finite.inj h
    have hmul : n.val.natAbs * quantaPerOne = nearestQuanta m.val.natAbs 1 := by
      rw [← hmagnitude, ← hs, natAbs_mul_quantaPerOne]
    rw [← hmul] at hle
    exact hn.not_ge (Nat.le_of_mul_le_mul_right hle quantaPerOne_pos)

theorem toNumber?_ofInt (n : Integer64) : ∃ k, (ofInt n.val).toNumber? = some k ∧ k.value = ofInt n.val := by
  cases hk : (ofInt n.val).toNumber? with
  | some k => exact ⟨k, rfl, value_of_toNumber? hk⟩
  | none =>
    obtain ⟨_, _, hf, -⟩ := exists_ofInt n
    cases hf.symm.trans (toNumber?_eq_none_iff.mp hk)

-- From `2 ^ 63` on, what is written is cut down or no whole number.
theorem toNumber?_ofInt_of_isExact (h : n.IsExact) (hn : n.val < 9223372036854775808) :
    (ofInt n.val).toNumber? = some (.integer n) := by
  obtain ⟨hr, hf⟩ := isExact_iff.mp h
  have hp : (quantaPerOne : Int) ≠ 0 := Int.natCast_ne_zero.mpr quantaPerOne_pos.ne'
  have hw : n.val * quantaPerOne / quantaPerOne = n.val := Int.mul_ediv_cancel _ hp
  have hlow := n.lower
  rw [hf, toNumber?]
  simp only [hw]
  rw [dif_pos ⟨Int.mul_emod_left .., hlow, hn.le⟩]
  congr 2
  exact Integer64.eq_of_val_eq (min_eq_left (by omega))

end Double

section Literals

variable {space : Typespace} {validateOptions : ValidateOptions} {generateOptions : GenerateOptions} {l : Literal}

theorem validate_literal_eq_nil_iff {value : Json} :
    validate space validateOptions (.literal l) value = [] ↔ l.admits value :=
  Validation.accepts_literal

theorem generate_literal : generate space generateOptions (.literal l) = .ok l.toJson := by
  rw [generate, Synthesis.ofNode]

theorem parse_integer {n : Integer64} :
    space.parse (.number (.integer n)) = .ok (.literal (.number (.ofInt n.val))) := by
  rw [Typespace.parse, Definition.parse, Json.Number.value]

theorem validate_integer_eq_nil_iff {n m : Integer64} :
    validate space validateOptions (.literal (.number (.ofInt n.val))) (.number (.integer m)) = [] ↔
      Double.ofInt n.val = Double.ofInt m.val :=
  validate_literal_eq_nil_iff.trans (decide_eq_true_iff.trans eq_comm)

theorem validate_generate_integer (space : Typespace) (n : Integer64) :
    ∃ node, space.parse (.number (.integer n)) = .ok node ∧
      (∀ options m, validate space options node (.number (.integer m)) = [] ↔
        Double.ofInt n.val = Double.ofInt m.val) ∧
      (∀ options m, n.IsExact ∧ m.IsExact ∨ n.val.natAbs < 9007199254740992 ∨ m.val.natAbs < 9007199254740992 →
        (validate space options node (.number (.integer m)) = [] ↔ n = m)) ∧
      ∀ options, ∃ k : Json.Number, generate space options node = .ok (.number k) ∧ k.value = .ofInt n.val ∧
        (n.IsExact → n.val < 9223372036854775808 → k = .integer n) := by
  refine ⟨.literal (.number (.ofInt n.val)), parse_integer, ?rounded, ?exact, ?generated⟩
  case rounded => exact fun _ _ => validate_integer_eq_nil_iff
  case exact =>
    intro options m h
    rw [validate_integer_eq_nil_iff]
    rcases h with ⟨hn, hm⟩ | hn | hm
    · exact Double.ofInt_inj_of_isExact hn hm
    · exact Double.ofInt_inj_of_natAbs_lt hn
    · exact eq_comm.trans ((Double.ofInt_inj_of_natAbs_lt hm).trans eq_comm)
  case generated =>
    intro options
    obtain ⟨k, hk, hv⟩ := Double.toNumber?_ofInt n
    refine ⟨k, ?_, hv, fun he hn => ?_⟩
    · rw [generate_literal, Literal.toJson, hk]
      rfl
    · exact Option.some.inj (hk.symm.trans (Double.toNumber?_ofInt_of_isExact he hn))

-- The power of two is an exact number, and has its sign.
theorem validate_generate_integer_least :
    Integer64.least.IsExact ∧ ∃ node, Typespace.empty.parse (.number (.integer .least)) = .ok node ∧
      (∀ m, m.IsExact → (validate .empty {} node (.number (.integer m)) = [] ↔ .least = m)) ∧
      generate .empty {} node = .ok (.number (.integer .least)) := by
  have he : Integer64.least.IsExact := by decide +kernel
  obtain ⟨node, hp, -, hv, hg⟩ := validate_generate_integer .empty .least
  obtain ⟨k, hk, -, hw⟩ := hg {}
  cases hw he (by decide)
  exact ⟨he, node, hp, fun m hm => hv {} m (.inl ⟨he, hm⟩), hk⟩

theorem ofInt_odd : Double.ofInt 9007199254740993 = Double.ofInt 9007199254740992 := by
  decide +kernel

-- A number of 54 bits is taken for its neighbour.
theorem not_validate_integer_eq :
    ¬∀ n m : Integer64, ∀ node, Typespace.empty.parse (.number (.integer n)) = .ok node →
      (validate .empty {} node (.number (.integer m)) = [] ↔ n = m) := by
  intro h
  have hv := h (.mk 9007199254740993) (.mk 9007199254740992) _ parse_integer
  cases hv.mp (validate_integer_eq_nil_iff.mpr ofInt_odd)

end Literals

end JsonShape
