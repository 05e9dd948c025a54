import JsonShape.Proofs.Definition.Scan

namespace JsonShape

def IsQuote (x : Char) : Prop :=
  x = '\'' ∨ x = '"'

-- The text ends outside of quotes, and these are its characters outside of them.
inductive Unquoted : List Char → List Char → Prop
  | nil    : Unquoted [] []
  | quoted : IsQuote quote → quote ∉ body → Unquoted rest outside →
      Unquoted (quote :: body ++ quote :: rest) outside
  | plain  : ¬IsQuote x → Unquoted rest outside → Unquoted (x :: rest) (x :: outside)

-- A quote is open where the text ends.
inductive EndsInQuote : List Char → Prop
  | intro : Unquoted start outside → IsQuote quote → quote ∉ body → EndsInQuote (start ++ quote :: body)

-- Neither a quote nor a parenthesis is open where the text ends.
inductive EndsOutside (text : List Char) : Prop
  | intro : Unquoted text outside → outside.count '(' ≤ outside.count ')' → EndsOutside text

-- A parenthesis is closed that was not open, or the text ends in a quote or in a parenthesis.
inductive Unbalanced : List Char → Prop
  | closed : EndsOutside start → Unbalanced (start ++ ')' :: rest)
  | quote  : EndsInQuote text → Unbalanced text
  | opened : Unquoted text outside → outside.count ')' < outside.count '(' → Unbalanced text

-- The text has a bar outside of quotes and parentheses.
inductive HasOuterBar : List Char → Prop
  | intro : EndsOutside start → HasOuterBar (start ++ '|' :: rest)

-- What the first character opens is closed by the last one, and not before.
structure IsGroup (text : List Char) : Prop where
  closed : EndsOutside text
  opened : ∀ start, start <+: text → start ≠ [] → start ≠ text → ¬EndsOutside start

variable {text start rest outside body : List Char} {quote x : Char} {depth : Nat} {s : Scan}

theorem unquoted_or_endsInQuote (text : List Char) :
    (∃ outside, Unquoted text outside) ∨ EndsInQuote text := by
  match text with
  | [] => exact .inl ⟨[], .nil⟩
  | x :: rest =>
    by_cases hq : IsQuote x
    case neg =>
      rcases unquoted_or_endsInQuote rest with ⟨outside, hu⟩ | he
      case inl => exact .inl ⟨x :: outside, .plain hq hu⟩
      case inr =>
        obtain ⟨hu, hy, hb⟩ := he
        exact .inr (.intro (.plain hq hu) hy hb)
    case pos =>
      by_cases hm : x ∈ rest
      case neg =>
        have he : EndsInQuote ([] ++ x :: rest) := .intro .nil hq hm
        exact .inr he
      case pos =>
        obtain ⟨body, more, he, hb⟩ := List.eq_append_cons_of_mem hm
        have hl := congrArg List.length he
        simp only [List.length_append, List.length_cons] at hl
        rw [he]
        rcases unquoted_or_endsInQuote more with ⟨outside, hu⟩ | hi
        case inl => exact .inl ⟨outside, .quoted hq hb hu⟩
        case inr =>
          obtain ⟨hu, hy, hc⟩ := hi
          have hi := EndsInQuote.intro (.quoted hq hb hu) hy hc
          simp only [List.cons_append, List.append_assoc] at hi
          exact .inr hi
termination_by text.length
decreasing_by all_goals simp only [List.length_append, List.length_cons] at *; omega

namespace Scan

theorem run_append (text rest : List Char) : s.run (text ++ rest) = (s.run text).bind fun s => s.run rest :=
  List.foldlM_append

theorem run_cons : s.run (x :: rest) = (s.step x).bind fun s => s.run rest :=
  List.foldlM_cons

theorem step_of_isQuote (h : IsQuote quote) : step ⟨depth, none⟩ quote = some ⟨depth, some quote⟩ := by
  have h : quote = '\'' ∨ quote = '"' := h
  simp only [step, if_pos h]

theorem run_quoted (h : quote ∉ body) : run ⟨depth, some quote⟩ body = some ⟨depth, some quote⟩ := by
  induction body with
  | nil => rfl
  | cons x body hi =>
    obtain ⟨hx, hb⟩ := not_or.mp (mt List.mem_cons.mpr h)
    have hs : step ⟨depth, some quote⟩ x = some ⟨depth, some quote⟩ := by
      simp only [step, if_neg (Ne.symm hx)]
    rw [run_cons, hs, Option.bind_some]
    exact hi hb

-- A quote leaves the scan where it is.
theorem run_quoted_append (hq : IsQuote quote) (h : quote ∉ body) :
    run ⟨depth, none⟩ (quote :: body ++ quote :: rest) = run ⟨depth, none⟩ rest := by
  have hs : step ⟨depth, some quote⟩ quote = some ⟨depth, none⟩ := by
    simp only [step, if_true]
  rw [List.cons_append, run_cons, step_of_isQuote hq, Option.bind_some, run_append, run_quoted h,
    Option.bind_some, run_cons, hs, Option.bind_some]

theorem depth_of_step (hq : ¬IsQuote x) (hs : step ⟨depth, none⟩ x = some s) :
    s.quote = none ∧ s.depth + [x].count ')' = depth + [x].count '(' := by
  have hq : ¬(x = '\'' ∨ x = '"') := hq
  simp only [step, if_neg hq] at hs
  split at hs
  case isTrue hx =>
    cases hs
    simp [hx]
  case isFalse hx =>
    split at hs
    case isTrue hy =>
      split at hs
      case isTrue  => cases hs
      case isFalse hd =>
        cases hs
        simp [hy]
        omega
    case isFalse hy =>
      cases hs
      simp [hx, hy]

-- The scan counts the parentheses that are open outside of quotes.
theorem depth_of_run (h : Unquoted text outside) (hr : run ⟨depth, none⟩ text = some s) :
    s.quote = none ∧ s.depth + outside.count ')' = depth + outside.count '(' := by
  induction h generalizing depth with
  | nil =>
    cases hr
    exact ⟨rfl, rfl⟩
  | quoted hq hb _ hi =>
    rw [run_quoted_append hq hb] at hr
    exact hi hr
  | @plain x _ outside hq _ hi =>
    rw [run_cons, Option.bind_eq_some_iff] at hr
    obtain ⟨⟨inner, quote⟩, hs, hr⟩ := hr
    obtain ⟨hn, hd⟩ := depth_of_step hq hs
    cases hn
    obtain ⟨hn, hi⟩ := hi hr
    have hc (y : Char) : (x :: outside).count y = [x].count y + outside.count y := by
      rw [← List.singleton_append, List.count_append]
    simp only [hc] at hd ⊢
    exact ⟨hn, by omega⟩

theorem isSome_quote_of_run (h : EndsInQuote text) (hr : run ⟨depth, none⟩ text = some s) :
    s.quote.isSome := by
  obtain ⟨hu, hq, hb⟩ := h
  rw [run_append, Option.bind_eq_some_iff] at hr
  obtain ⟨⟨inner, quote⟩, hs, hr⟩ := hr
  cases (depth_of_run hu hs).left
  rw [run_cons, step_of_isQuote hq, Option.bind_some, run_quoted hb] at hr
  cases hr
  rfl

theorem endsOutside_iff (hr : run {} text = some s) : EndsOutside text ↔ s = {} := by
  constructor
  case mp =>
    rintro ⟨hu, hc⟩
    obtain ⟨hq, hd⟩ := depth_of_run hu hr
    obtain ⟨depth, quote⟩ := s
    cases hq
    simp only [mk.injEq, and_true] at hd ⊢
    omega
  case mpr =>
    rintro rfl
    rcases unquoted_or_endsInQuote text with ⟨outside, hu⟩ | he
    case inl => exact .intro hu (by have := (depth_of_run hu hr).right; simp only at this; omega)
    case inr => cases isSome_quote_of_run he hr

theorem step_eq_none_iff : s.step x = none ↔ s = {} ∧ x = ')' := by
  obtain ⟨depth, quote⟩ := s
  cases quote with
  | some quote => simp [step]
  | none =>
    simp only [step]
    grind

theorem exists_of_run_eq_none (h : run s text = none) :
    ∃ start rest, text = start ++ ')' :: rest ∧ run s start = some {} := by
  induction text generalizing s with
  | nil => cases h
  | cons x rest hi =>
    rw [run_cons] at h
    cases hs : s.step x with
    | none =>
      obtain ⟨rfl, rfl⟩ := step_eq_none_iff.mp hs
      exact ⟨[], rest, rfl, rfl⟩
    | some next =>
      rw [hs, Option.bind_some] at h
      obtain ⟨start, rest, rfl, hr⟩ := hi h
      exact ⟨x :: start, rest, rfl, by rw [run_cons, hs, Option.bind_some, hr]⟩

-- A scan stops at a parenthesis that closes nothing, and only there.
theorem run_eq_none_iff :
    run {} text = none ↔ ∃ start rest, text = start ++ ')' :: rest ∧ EndsOutside start := by
  constructor
  case mp =>
    intro h
    obtain ⟨start, rest, he, hr⟩ := exists_of_run_eq_none h
    exact ⟨start, rest, he, (endsOutside_iff hr).mpr rfl⟩
  case mpr =>
    rintro ⟨start, rest, rfl, ho⟩
    rw [run_append]
    cases hr : run {} start with
    | none   => rfl
    | some s =>
      cases (endsOutside_iff hr).mp ho
      rfl

theorem split_eq_none_iff : s.split text = none ↔ s.run text ≠ some {} := by
  induction text generalizing s with
  | nil =>
    rw [split, run, List.foldlM_nil]
    simp [isOutside_iff, Option.pure_def]
  | cons x rest hi =>
    rw [split, run_cons]
    split
    case isTrue hb =>
      obtain ⟨rfl, ho⟩ := hb
      cases isOutside_iff.mp ho
      rw [Option.map_eq_none_iff, hi]
      rfl
    case isFalse =>
      cases s.step x with
      | none      => simp
      | some next => rw [Option.bind_some, Option.bind_some, Option.map_eq_none_iff, hi]

end Scan

theorem splitUnion?_eq_none_iff : splitUnion? text = none ↔ ¬isBalanced text := by
  rw [isBalanced_iff]
  exact Scan.split_eq_none_iff

theorem not_isBalanced_iff : ¬isBalanced text ↔ Unbalanced text := by
  rw [isBalanced_iff]
  constructor
  case mp =>
    intro h
    cases hr : Scan.run {} text with
    | none =>
      obtain ⟨start, rest, rfl, ho⟩ := Scan.run_eq_none_iff.mp hr
      exact .closed ho
    | some s =>
      rcases unquoted_or_endsInQuote text with ⟨outside, hu⟩ | he
      case inr => exact .quote he
      case inl =>
        refine .opened hu (Nat.lt_of_not_le fun hc => h ?_)
        rw [hr, (Scan.endsOutside_iff hr).mp (.intro hu hc)]
  case mpr =>
    rintro h hr
    cases h with
    | closed ho =>
      cases (Scan.run_eq_none_iff.mpr ⟨_, _, rfl, ho⟩).symm.trans hr
    | quote he    => cases Scan.isSome_quote_of_run he hr
    | opened hu hc =>
      have hd := (Scan.depth_of_run hu hr).right
      simp only at hd
      omega

theorem endsOutside_of_isBalanced (h : isBalanced text) : EndsOutside text :=
  (Scan.endsOutside_iff (isBalanced_iff.mp h)).mpr rfl

theorem not_hasOuterBar (h : Solid text) : ¬HasOuterBar text := by
  rintro ⟨ho⟩
  obtain ⟨s, hs, hr⟩ := Scan.Passes.of_append h
  cases hr with
  | cons hb _ _ =>
    cases (Scan.endsOutside_iff hs.run_eq).mp ho
    exact hb ⟨rfl, rfl⟩

theorem Unquoted.concat (hx : ¬IsQuote x) (h : Unquoted text outside) :
    Unquoted (text ++ [x]) (outside ++ [x]) := by
  induction h with
  | nil => exact .plain hx .nil
  | @quoted quote body rest _ hq hb _ hi =>
    rw [List.append_assoc]
    exact .quoted hq hb hi
  | plain hy _ hi => exact .plain hy hi

theorem Unquoted.of_cons (hx : ¬IsQuote x) (h : Unquoted (x :: text) outside) :
    ∃ after, outside = x :: after ∧ Unquoted text after := by
  generalize he : x :: text = whole at h
  cases h with
  | nil => cases he
  | quoted hq =>
    cases he
    exact absurd hq hx
  | plain _ hu =>
    cases he
    exact ⟨_, rfl, hu⟩

theorem Unquoted.of_concat (hx : ¬IsQuote x) (h : Unquoted (text ++ [x]) outside) :
    ∃ before, outside = before ++ [x] ∧ Unquoted text before := by
  generalize he : text ++ [x] = whole at h
  induction h generalizing text with
  | nil => simp at he
  | @quoted quote body rest _ hq hb _ hi =>
    rcases List.eq_nil_or_concat rest with rfl | ⟨rest, y, rfl⟩
    case inl =>
      obtain ⟨-, hy⟩ := List.append_inj' he rfl
      exact absurd (List.singleton_inj.mp hy ▸ hq) hx
    case inr =>
      rw [List.concat_eq_append, ← List.cons_append, ← List.append_assoc] at he
      obtain ⟨rfl, hy⟩ := List.append_inj' he rfl
      cases hy
      obtain ⟨before, rfl, hu⟩ := hi (List.concat_eq_append).symm
      exact ⟨before, rfl, .quoted hq hb hu⟩
  | @plain y rest _ hy hu hi =>
    cases text with
    | nil =>
      cases he
      cases hu
      exact ⟨[], rfl, .nil⟩
    | cons z text =>
      obtain ⟨rfl, ht⟩ : z = y ∧ text ++ [x] = rest := by simpa using he
      obtain ⟨before, rfl, hb⟩ := hi ht
      exact ⟨z :: before, rfl, .plain hy hb⟩

theorem endsOutside_group_iff : EndsOutside ('(' :: body ++ [')']) ↔ EndsOutside body := by
  have hl : ¬IsQuote '(' := by simp [IsQuote]
  have hr : ¬IsQuote ')' := by simp [IsQuote]
  constructor
  case mp =>
    rintro ⟨hu, hc⟩
    obtain ⟨before, rfl, hb⟩ := hu.of_concat hr
    obtain ⟨outside, rfl, ho⟩ := hb.of_cons hl
    exact .intro ho (by simpa using hc)
  case mpr =>
    rintro ⟨hu, hc⟩
    exact .intro ((Unquoted.plain hl hu).concat hr) (by simpa using hc)

theorem isGroup_of_isBalanced (h : isBalanced body) : IsGroup ('(' :: body ++ [')']) where
  closed := endsOutside_group_iff.mpr (endsOutside_of_isBalanced h)
  opened := by
    intro start hp hn hl ho
    obtain ⟨ending, he⟩ := hp
    rcases List.eq_nil_or_concat ending with rfl | ⟨rest, y, rfl⟩
    case inl => exact hl ((List.append_nil start).symm.trans he)
    case inr =>
      cases start with
      | nil => exact hn rfl
      | cons x start =>
        rw [List.concat_eq_append, ← List.append_assoc] at he
        obtain ⟨he, -⟩ := List.append_inj' he rfl
        obtain ⟨rfl, rfl⟩ : x = '(' ∧ start ++ rest = body := by simpa using he
        -- One parenthesis more is open than in the same part of the body.
        have hb := isBalanced_iff.mp h
        rw [Scan.run_append, Option.bind_eq_some_iff] at hb
        obtain ⟨s, hs, -⟩ := hb
        have hr : Scan.run {} ('(' :: start) = some { s with depth := s.depth + 1 } :=
          (Scan.passes_of_run hs).run_eq
        cases (Scan.endsOutside_iff hr).mp ho

theorem isBalanced_of_isGroup (h : IsGroup ('(' :: body ++ [')'])) : isBalanced body := by
  rw [isBalanced_iff]
  cases hr : Scan.run {} body with
  | some s => rw [(Scan.endsOutside_iff hr).mp (endsOutside_group_iff.mp h.closed)]
  | none =>
    obtain ⟨start, rest, rfl, ho⟩ := Scan.run_eq_none_iff.mp hr
    have hp : '(' :: start ++ [')'] <+: '(' :: (start ++ ')' :: rest) ++ [')'] := ⟨rest ++ [')'], by simp⟩
    exact absurd (endsOutside_group_iff.mpr ho) (h.opened _ hp (by simp) (by simp))

theorem groupBody?_eq_some_iff :
    groupBody? text = some body ↔ text = '(' :: body ++ [')'] ∧ IsGroup text := by
  constructor
  case mp =>
    intro h
    have he := eq_of_groupBody? h
    have hb : isBalanced body := by simpa [he, groupBody?] using h
    exact ⟨he, he ▸ isGroup_of_isBalanced hb⟩
  case mpr =>
    rintro ⟨rfl, hg⟩
    exact groupBody?_group (isBalanced_of_isGroup hg)

-- A text is split unless it is unbalanced. The parts are the text again with bars between them, and cannot be
-- split any further. A part is a group just if it has its parentheses around it.
theorem splitting_exact (text : List Char) :
    (splitUnion? text = none ↔ Unbalanced text) ∧
    ∀ first others, splitUnion? text = some (first, others) →
      ['|'].intercalate (first :: others) = text ∧
      ∀ part ∈ first :: others,
        splitUnion? part = some (part, []) ∧ ¬Unbalanced part ∧ ¬HasOuterBar part ∧
        ∀ body,
          (groupBody? part = some body ↔ part = '(' :: body ++ [')'] ∧ IsGroup part) ∧
          (groupBody? part = some body → ¬Unbalanced body) := by
  refine ⟨splitUnion?_eq_none_iff.trans not_isBalanced_iff, fun first others h => ⟨?_, fun part hp => ?_⟩⟩
  case refine_1 => exact (Scan.eq_intercalate_of_split h).symm
  case refine_2 =>
    have hs := solid_of_mem_splitUnion? h hp
    have hb : ¬Unbalanced part := fun hu => not_isBalanced_iff.mpr hu (isBalanced_of_solid hs)
    refine ⟨splitUnion?_of_solid hs, hb, not_hasOuterBar hs, fun body => ⟨groupBody?_eq_some_iff, fun hg => ?_⟩⟩
    obtain ⟨rfl, hg⟩ := groupBody?_eq_some_iff.mp hg
    exact fun hu => not_isBalanced_iff.mpr hu (isBalanced_of_isGroup hg)

-- One bar stands in a quote, one in a group and one between the parts. The quote hides a parenthesis, and the
-- second part has two groups, so it is none.
theorem splitting_exact_quoted :
    ∃ first second,
      splitUnion? "(')|'|a)|(b)(c)".toList = some (first, [second]) ∧
      ['|'].intercalate [first, second] = "(')|'|a)|(b)(c)".toList ∧
      groupBody? first = some "')|'|a".toList ∧ ¬Unbalanced "')|'|a".toList ∧ IsGroup first ∧
      groupBody? second = none ∧ ¬IsGroup second := by
  have hs : splitUnion? "(')|'|a)|(b)(c)".toList = some ("(')|'|a)".toList, ["(b)(c)".toList]) := by decide
  have hf : groupBody? "(')|'|a)".toList = some "')|'|a".toList := by decide
  have hn : groupBody? "(b)(c)".toList = none := by decide
  obtain ⟨hi, hp⟩ := (splitting_exact _).right _ _ hs
  obtain ⟨-, -, -, hg⟩ := hp _ (.head _)
  obtain ⟨-, -, -, hb⟩ := hp _ (.tail _ (.head _))
  have hg := hg "')|'|a".toList
  refine ⟨_, _, hs, hi, hf, hg.right hf, (hg.left.mp hf).right, hn, fun hc => ?_⟩
  cases hn.symm.trans ((hb "b)(c".toList).left.mpr ⟨by decide, hc⟩)

end JsonShape
