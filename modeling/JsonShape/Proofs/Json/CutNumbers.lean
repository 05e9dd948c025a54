import JsonShape.Proofs.Json.Cutting

namespace JsonShape

namespace Cursor

open Reading

variable {tail : List Char}

theorem digits_append {c : Cursor} (h : tail.length ≤ (c.append tail).digits.snd.size) :
    (c.append tail).digits = (c.digits.fst, c.digits.snd.append tail) := by
  obtain ⟨text, p⟩ := c
  have hs : (text ++ tail).takeWhile Char.isDigit ++ (text ++ tail).dropWhile Char.isDigit = text ++ tail :=
    List.takeWhile_append_dropWhile
  obtain ⟨short, ht, hd⟩ := exists_of_append_eq _ hs.symm h
  have hr : text.takeWhile Char.isDigit = (text ++ tail).takeWhile Char.isDigit := by
    by_cases hl : (text.takeWhile Char.isDigit).length = text.length
    case neg => rw [List.takeWhile_append, if_neg hl]
    case pos =>
      -- The digits go up to the tail, and the tail starts with no other one.
      have hn : tail.takeWhile Char.isDigit ++ short = [] := by
        rw [List.takeWhile_append, if_pos hl, List.append_assoc] at ht
        exact List.self_eq_append_right.mp ht
      rw [List.takeWhile_append, if_pos hl, (List.append_eq_nil_iff.mp hn).left, List.append_nil]
      exact (List.takeWhile_prefix _).eq_of_length hl
  have hb : text.dropWhile Char.isDigit = short := by
    have hw : text.takeWhile Char.isDigit ++ text.dropWhile Char.isDigit = text :=
      List.takeWhile_append_dropWhile
    rw [hr] at hw
    exact List.append_cancel_left (hw.trans ht)
  simp only [digits, append, hr, hb, hd]

theorem wholePart_eq_ok_iff {c next : Cursor} {value : List Char} {next_lt : next.size < c.size} :
    c.wholePart = .ok ⟨value, next, next_lt⟩ ↔
      c.digits = (value, next) ∧ value ≠ [] ∧ ¬(value.head? = some '0' ∧ 1 < value.length) := by
  constructor
  case mp =>
    intro h
    rw [wholePart] at h
    split at h
    case isTrue => cases h
    case isFalse hn =>
      split at h
      case isTrue => cases h
      case isFalse hz =>
        cases h
        exact ⟨rfl, hn, hz⟩
  case mpr =>
    rintro ⟨hd, hn, hz⟩
    obtain ⟨rfl, rfl⟩ : c.digits.fst = value ∧ c.digits.snd = next := ⟨by rw [hd], by rw [hd]⟩
    rw [wholePart, dif_neg hn, if_neg hz]

theorem fractionalPart?_eq_none_iff {c : Cursor} : c.fractionalPart? = none ↔ c.rest.head? ≠ some '.' := by
  obtain ⟨_ | ⟨x, rest⟩, p⟩ := c
  case nil => simp [fractionalPart?]
  case cons =>
    simp only [fractionalPart?]
    split
    case h_1 h => split <;> simp [h]
    case h_2 h => simpa using h

theorem of_fractionalPart? {c next : Cursor} {value : List Char} {next_lt : next.size < c.size}
    (h : c.fractionalPart? = some (.ok ⟨value, next, next_lt⟩)) :
    ∃ more, c.rest = '.' :: more ∧ digits ⟨more, c.position.after '.'⟩ = (value, next) ∧ value ≠ [] := by
  rw [fractionalPart?] at h
  split at h
  case h_2 => cases h
  case h_1 more hr =>
    simp only at h
    split at h
    case isTrue => cases h
    case isFalse hd =>
      cases h
      exact ⟨more, hr, rfl, by simpa using hd⟩

theorem fractionalPart?_of {next : Cursor} {value more : List Char} {p : Position}
    (hd : digits ⟨more, p.after '.'⟩ = (value, next)) (hn : value ≠ []) :
    ∃ next_lt, fractionalPart? ⟨'.' :: more, p⟩ = some (.ok ⟨value, next, next_lt⟩) := by
  have hv : ¬value.isEmpty := by simpa using hn
  have hs : next.size ≤ more.length := by
    have hl := size_digits_le ⟨more, p.after '.'⟩
    rwa [hd] at hl
  simp only [fractionalPart?, hd, if_neg hv]
  exact ⟨Nat.lt_succ_of_le hs, trivial⟩

-- A sign that may be missing, with the cursor behind it.
inductive Signed : Cursor → Bool → Cursor → Prop
  | plus  : Signed ⟨'+' :: more, p⟩ false ⟨more, p.after '+'⟩
  | minus : Signed ⟨'-' :: more, p⟩ true ⟨more, p.after '-'⟩
  | none  : (∀ more, c.rest ≠ '+' :: more) → (∀ more, c.rest ≠ '-' :: more) → Signed c false c

theorem Signed.size_le {c start : Cursor} {negative : Bool} (h : Signed c negative start) :
    start.size ≤ c.size := by
  cases h with
  | plus | minus => exact Nat.le_succ _
  | none         => exact Nat.le_refl _

theorem Signed.of_append {c start : Cursor} {negative : Bool} (h : Signed (c.append tail) negative start)
    (hl : tail.length ≤ start.size) : ∃ here, Signed c negative here ∧ here.append tail = start := by
  obtain ⟨text, p⟩ := c
  generalize hc : append ⟨text, p⟩ tail = long at h
  cases h with
  | plus | minus =>
    obtain ⟨hr, rfl⟩ := mk.inj hc
    obtain ⟨short, rfl, rfl⟩ := exists_of_append_eq [_] hr hl
    exact ⟨_, by constructor, rfl⟩
  | none hp hm =>
    subst hc
    refine ⟨_, .none (fun more hr => ?_) (fun more hr => ?_), rfl⟩
    · exact hp (more ++ tail) (congrArg (· ++ tail) hr)
    · exact hm (more ++ tail) (congrArg (· ++ tail) hr)

theorem of_exponent? {c next : Cursor} {value : Exponent} {next_lt : next.size < c.size}
    (h : c.exponent? = some (.ok ⟨value, next, next_lt⟩)) :
    ∃ x more, c.rest = x :: more ∧ (x = 'e' ∨ x = 'E') ∧
      Signed ⟨more, c.position.after x⟩ value.negative value.start ∧
      value.start.digits = (value.digits, next) ∧ value.digits ≠ [] := by
  obtain ⟨_ | ⟨x, rest⟩, p⟩ := c
  case nil => cases h
  case cons =>
    simp only [exponent?] at h
    split at h
    case isFalse => cases h
    case isTrue hx =>
      split at h
      all_goals
        split at h
        case isTrue => cases h
        case isFalse hd =>
          cases h
          refine ⟨x, _, rfl, hx, ?_, rfl, by simpa using hd⟩
          constructor <;> assumption

theorem exponent?_of {next start : Cursor} {x : Char} {digits more : List Char} {p : Position} {negative : Bool}
    (hx : x = 'e' ∨ x = 'E') (hs : Signed ⟨more, p.after x⟩ negative start)
    (hd : start.digits = (digits, next)) (hn : digits ≠ []) :
    ∃ next_lt, exponent? ⟨x :: more, p⟩ = some (.ok ⟨⟨negative, digits, start⟩, next, next_lt⟩) := by
  have hv : ¬digits.isEmpty := by simpa using hn
  have hl : next.size ≤ more.length := by
    have hb := size_digits_le start
    rw [hd] at hb
    exact Nat.le_trans hb hs.size_le
  refine ⟨Nat.lt_succ_of_le hl, ?_⟩
  simp only [exponent?, if_pos hx]
  cases hs with
  | plus => simp only [hd, if_neg hv]
  | minus => simp only [hd, if_neg hv]
  | none hp hm =>
    split
    case h_1 => exact absurd rfl (hp _)
    case h_2 => exact absurd rfl (hm _)
    case h_3 => simp only [hd, if_neg hv]

theorem exponent?_eq_none_iff {c : Cursor} :
    c.exponent? = none ↔ ∀ x ∈ c.rest.head?, ¬(x = 'e' ∨ x = 'E') := by
  obtain ⟨_ | ⟨x, rest⟩, p⟩ := c
  case nil => simp [exponent?]
  case cons =>
    simp only [exponent?]
    split
    case isTrue hx =>
      refine iff_of_false ?_ fun hn => hn x rfl hx
      split <;> split <;> simp
    case isFalse hx => simpa using hx

theorem cut_wholePart (c : Cursor) : Cut tail (c.append tail).wholePart c.wholePart := by
  intro value next next_lt he hl
  obtain ⟨hd, hn, hz⟩ := wholePart_eq_ok_iff.mp he
  have ha := digits_append (c := c) (by rwa [hd])
  obtain ⟨rfl, rfl⟩ := Prod.mk.inj (hd.symm.trans ha)
  exact ⟨c.digits.snd, size_digits_lt hn, wholePart_eq_ok_iff.mpr ⟨rfl, hn, hz⟩, rfl⟩

theorem fractionalPart?_of_append {c next : Cursor} {value : List Char}
    {next_lt : next.size < (c.append tail).size}
    (h : (c.append tail).fractionalPart? = some (.ok ⟨value, next, next_lt⟩)) (hl : tail.length ≤ next.size) :
    ∃ here here_lt, c.fractionalPart? = some (.ok ⟨value, here, here_lt⟩) ∧ here.append tail = next := by
  obtain ⟨text, p⟩ := c
  obtain ⟨more, hr, hd, hn⟩ : ∃ more, text ++ tail = '.' :: more ∧
      digits ⟨more, p.after '.'⟩ = (value, next) ∧ value ≠ [] := of_fractionalPart? h
  have hs : next.size ≤ more.length := by
    have hs := size_digits_le ⟨more, p.after '.'⟩
    rwa [hd] at hs
  obtain ⟨short, rfl, rfl⟩ := exists_of_append_eq ['.'] hr (Nat.le_trans hl hs)
  have ha : digits ⟨short ++ tail, p.after '.'⟩ = _ := digits_append (c := ⟨short, p.after '.'⟩) (hd ▸ hl)
  obtain ⟨rfl, rfl⟩ := Prod.mk.inj (hd.symm.trans ha)
  obtain ⟨here_lt, hf⟩ := fractionalPart?_of rfl hn
  exact ⟨_, here_lt, hf, rfl⟩

-- An exponent has the place where its digits start, with the tail behind it. Its value is the same without.
theorem exponent?_of_append {c next : Cursor} {value : Exponent} {next_lt : next.size < (c.append tail).size}
    (h : (c.append tail).exponent? = some (.ok ⟨value, next, next_lt⟩)) (hl : tail.length ≤ next.size) :
    ∃ value' here here_lt, c.exponent? = some (.ok ⟨value', here, here_lt⟩) ∧
      value'.value = value.value ∧ here.append tail = next := by
  obtain ⟨text, p⟩ := c
  obtain ⟨x, more, hr, hx, hs, hd, hn⟩ : ∃ x more, text ++ tail = x :: more ∧ (x = 'e' ∨ x = 'E') ∧
      Signed ⟨more, p.after x⟩ value.negative value.start ∧
      value.start.digits = (value.digits, next) ∧ value.digits ≠ [] := of_exponent? h
  have hb : next.size ≤ value.start.size := by
    have hb := size_digits_le value.start
    rwa [hd] at hb
  obtain ⟨short, rfl, rfl⟩ := exists_of_append_eq [x] hr (Nat.le_trans hl (Nat.le_trans hb hs.size_le))
  obtain ⟨start, hs, he⟩ := Signed.of_append (c := ⟨short, p.after x⟩) hs (Nat.le_trans hl hb)
  rw [← he] at hd
  have ha := digits_append (c := start) (by rwa [hd])
  obtain ⟨hv, rfl⟩ := Prod.mk.inj (hd.symm.trans ha)
  obtain ⟨here_lt, hf⟩ := exponent?_of hx hs (Prod.ext hv.symm rfl) hn
  exact ⟨_, _, here_lt, hf, rfl, rfl⟩

theorem fractionalPart?_of_append_eq_none {c : Cursor} (h : (c.append tail).fractionalPart? = none) :
    c.fractionalPart? = none := by
  rw [fractionalPart?_eq_none_iff] at h ⊢
  obtain ⟨_ | ⟨x, rest⟩, p⟩ := c
  · simp
  · exact h

theorem exponent?_of_append_eq_none {c : Cursor} (h : (c.append tail).exponent? = none) :
    c.exponent? = none := by
  rw [exponent?_eq_none_iff] at h ⊢
  obtain ⟨_ | ⟨x, rest⟩, p⟩ := c
  · simp
  · exact h

-- A part that may be missing, with the cursor behind it.
inductive Takes {α : Type} (c : Cursor) (read? : Option (Reading α c.size)) : Option α → Cursor → Prop
  | missing : read? = none → Takes c read? none c
  | found   : read? = some (.ok ⟨value, next, next_lt⟩) → Takes c read? (some value) next

theorem Takes.size_le {α : Type} {c next : Cursor} {read? : Option (Reading α c.size)} {value? : Option α}
    (h : Takes c read? value? next) : next.size ≤ c.size := by
  cases h with
  | missing                     => exact Nat.le_refl _
  | @found _ next next_lt       => exact Nat.le_of_lt next_lt

theorem fraction_of_append {c next : Cursor} {fraction : Option (List Char)}
    (h : Takes (c.append tail) (c.append tail).fractionalPart? fraction next) (hl : tail.length ≤ next.size) :
    ∃ here, Takes c c.fractionalPart? fraction here ∧ here.append tail = next := by
  cases h with
  | missing hf => exact ⟨c, .missing (fractionalPart?_of_append_eq_none hf), rfl⟩
  | found hf   =>
    obtain ⟨here, _, hf, hn⟩ := fractionalPart?_of_append hf hl
    exact ⟨here, .found hf, hn⟩

theorem exponent_of_append {c next : Cursor} {exponent : Option Exponent}
    (h : Takes (c.append tail) (c.append tail).exponent? exponent next) (hl : tail.length ≤ next.size) :
    ∃ exponent' here, Takes c c.exponent? exponent' here ∧
      exponent'.map Exponent.value = exponent.map Exponent.value ∧ here.append tail = next := by
  cases h with
  | missing he => exact ⟨none, c, .missing (exponent?_of_append_eq_none he), rfl, rfl⟩
  | found he   =>
    obtain ⟨e, here, _, he, hv, hn⟩ := exponent?_of_append he hl
    exact ⟨some e, here, .found he, congrArg some hv, hn⟩

def withExponent {n : Nat} (fraction : Option (List Char)) (c : Cursor) (h : c.size < n) :
    Reading (Option (List Char) × Option Exponent) n :=
  match c.exponent? with
  | none => .ok ⟨(fraction, none), c, h⟩
  | some read => (read.map fun e => (fraction, some e)).weaken (Nat.le_of_lt h)

theorem withExponent_eq_ok_iff {n : Nat} {fraction fraction' : Option (List Char)} {c next : Cursor}
    {exponent : Option Exponent} {h : c.size < n} {next_lt : next.size < n} :
    withExponent fraction c h = .ok ⟨(fraction', exponent), next, next_lt⟩ ↔
      fraction' = fraction ∧ Takes c c.exponent? exponent next := by
  rw [withExponent]
  constructor
  case mp =>
    intro h
    split at h
    case h_1 he =>
      cases h
      exact ⟨rfl, .missing he⟩
    case h_2 read he =>
      obtain ⟨_, hr⟩ := of_weaken h
      cases read with
      | error => cases hr
      | ok s =>
        cases hr
        exact ⟨rfl, .found he⟩
  case mpr =>
    rintro ⟨rfl, he⟩
    cases he with
    | missing he => simp only [he]
    | found he =>
      simp only [he]
      rfl

theorem fractionAndExponent_eq (c : Cursor) (whole : Scanned (List Char) c.size) :
    number.fractionAndExponent c whole =
      whole.next.fractionalPart?.elim (withExponent none whole.next whole.size_lt)
        fun read => read.bind fun s => withExponent (some s.value) s.next (Nat.lt_trans s.size_lt whole.size_lt) := by
  rw [number.fractionAndExponent]
  split <;> simp_all [Except.bind] <;> rfl

theorem fractionAndExponent_eq_ok_iff {c next : Cursor} {whole : Scanned (List Char) c.size}
    {fraction : Option (List Char)} {exponent : Option Exponent} {next_lt : next.size < c.size} :
    number.fractionAndExponent c whole = .ok ⟨(fraction, exponent), next, next_lt⟩ ↔
      ∃ middle, Takes whole.next whole.next.fractionalPart? fraction middle ∧
        Takes middle middle.exponent? exponent next := by
  rw [fractionAndExponent_eq]
  constructor
  case mp =>
    intro h
    cases hf : whole.next.fractionalPart? with
    | none =>
      rw [hf] at h
      obtain ⟨rfl, he⟩ := withExponent_eq_ok_iff.mp h
      exact ⟨_, .missing rfl, he⟩
    | some read =>
      rw [hf] at h
      cases read with
      | error => cases h
      | ok s =>
        obtain ⟨rfl, he⟩ := withExponent_eq_ok_iff.mp h
        exact ⟨_, .found rfl, he⟩
  case mpr =>
    rintro ⟨middle, hf, he⟩
    cases hf with
    | missing hf =>
      rw [hf]
      exact withExponent_eq_ok_iff.mpr ⟨rfl, he⟩
    | found hf =>
      rw [hf]
      exact withExponent_eq_ok_iff.mpr ⟨rfl, he⟩

-- The number that these digits write, if it is one.
def numberValue? (negative : Bool) (whole : List Char) (fraction : Option (List Char)) (power : Option Int) :
    Option Json.Number :=
  let significand := ofDecimalDigits (whole ++ fraction.getD [])
  let integer? : Option Integer64 :=
    if fraction.isNone ∧ power.isNone ∧ ¬(negative ∧ significand = 0) then
      Integer64.ofInt? (if negative then -significand else significand)
    else none
  let decimal : Decimal := ⟨significand, power.getD 0 - (fraction.getD []).length⟩
  (integer?.map .integer).or ((Binary64.ofQuanta? negative decimal.quanta).map .float)

theorem number_eq {c next : Cursor} {whole : Scanned (List Char) c.size} {fraction : Option (List Char)}
    {exponent : Option Exponent} {next_lt : next.size < c.size} (negative : Bool) (hw : c.wholePart = .ok whole)
    (hf : number.fractionAndExponent c whole = .ok ⟨(fraction, exponent), next, next_lt⟩) :
    c.number negative =
      (numberValue? negative whole.value fraction (exponent.map Exponent.value)).elim
        (fail .numberOutOfRange ((exponent.bind Exponent.overflow?).getD next.position))
        fun value => .ok ⟨value, next, next_lt⟩ := by
  have hp : exponent.elim 0 Exponent.value = (exponent.map Exponent.value).getD 0 := by cases exponent <;> rfl
  have hn : (exponent.map Exponent.value).isNone = exponent.isNone := Option.isNone_map
  rw [number]
  simp only [hw, hf, numberValue?, hp, hn]
  split
  case h_1 hi =>
    rw [hi]
    rfl
  case h_2 hi =>
    rw [hi]
    split
    case h_1 ho =>
      rw [ho]
      rfl
    case h_2 ho =>
      rw [ho]
      rfl

theorem number_eq_ok_iff {c next : Cursor} {negative : Bool} {value : Json.Number}
    {next_lt : next.size < c.size} :
    c.number negative = .ok ⟨value, next, next_lt⟩ ↔
      ∃ whole fraction exponent, c.wholePart = .ok whole ∧
        number.fractionAndExponent c whole = .ok ⟨(fraction, exponent), next, next_lt⟩ ∧
        numberValue? negative whole.value fraction (exponent.map Exponent.value) = some value := by
  constructor
  case mp =>
    intro h
    cases hw : c.wholePart with
    | error =>
      rw [number, hw] at h
      cases h
    | ok whole =>
      cases hf : number.fractionAndExponent c whole with
      | error =>
        rw [number, hw] at h
        simp only [hf] at h
        cases h
      | ok s =>
        obtain ⟨⟨fraction, exponent⟩, behind, behind_lt⟩ := s
        rw [number_eq negative hw hf] at h
        cases hv : numberValue? negative whole.value fraction (exponent.map Exponent.value) with
        | none =>
          rw [hv] at h
          cases h
        | some n =>
          rw [hv] at h
          cases h
          exact ⟨whole, fraction, exponent, rfl, hf, hv⟩
  case mpr =>
    rintro ⟨whole, fraction, exponent, hw, hf, hv⟩
    rw [number_eq negative hw hf, hv]
    rfl

theorem cut_number (c : Cursor) (negative : Bool) :
    Cut tail ((c.append tail).number negative) (c.number negative) := by
  intro value next next_lt hn hl
  obtain ⟨whole, fraction, exponent, hw, hr, hv⟩ := number_eq_ok_iff.mp hn
  obtain ⟨middle, hf, he⟩ := fractionAndExponent_eq_ok_iff.mp hr
  obtain ⟨digits, behind, behind_lt⟩ := whole
  have hm : tail.length ≤ middle.size := Nat.le_trans hl he.size_le
  obtain ⟨start, start_lt, hw', rfl⟩ := cut_wholePart c _ _ _ hw (Nat.le_trans hm hf.size_le)
  obtain ⟨middle', hf', rfl⟩ := fraction_of_append hf hm
  obtain ⟨exponent', here, he', hp, rfl⟩ := exponent_of_append he hl
  have here_lt : here.size < c.size := Nat.lt_of_le_of_lt (Nat.le_trans he'.size_le hf'.size_le) start_lt
  have hr' : number.fractionAndExponent c ⟨digits, start, start_lt⟩ =
      .ok ⟨(fraction, exponent'), here, here_lt⟩ := fractionAndExponent_eq_ok_iff.mpr ⟨middle', hf', he'⟩
  exact ⟨here, here_lt, number_eq_ok_iff.mpr ⟨_, fraction, exponent', hw', hr', hp ▸ hv⟩, rfl⟩

end Cursor

end JsonShape
