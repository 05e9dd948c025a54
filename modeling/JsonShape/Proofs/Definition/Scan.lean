import JsonShape.Definition.Scan

namespace JsonShape

namespace Scan

-- The scan goes from one state to the other past the text, and nothing is cut on the way.
inductive Passes : Scan → List Char → Scan → Prop
  | nil  : Passes s [] s
  | cons : ¬(x = '|' ∧ s.isOutside) → (s.step x = some s') → (Passes s' rest s'') →
      Passes s (x :: rest) s''

variable {s s' s'' : Scan} {text rest : List Char}

theorem isOutside_iff : s.isOutside ↔ s = {} := by
  cases s
  simp [isOutside]

namespace Passes

theorem append (h : s.Passes text s') (hr : s'.Passes rest s'') : s.Passes (text ++ rest) s'' := by
  induction h with
  | nil           => exact hr
  | cons hb hs _ hi => exact .cons hb hs (hi hr)

theorem run_append (h : s.Passes text s') (rest : List Char) : s.run (text ++ rest) = s'.run rest := by
  induction h with
  | nil => rfl
  | cons _ hs _ hi =>
    rw [run] at hi ⊢
    simp only [List.cons_append, List.foldlM_cons, hs, Option.bind_eq_bind, Option.bind_some, hi, run]

theorem run_eq (h : s.Passes text s') : s.run text = some s' := by
  have hr := h.run_append []
  rwa [List.append_nil] at hr

theorem split_append (h : s.Passes text s') (rest : List Char) :
    s.split (text ++ rest) = (s'.split rest).map fun (first, others) => (text ++ first, others) := by
  induction h with
  | nil => simp
  | cons hb hs _ hi =>
    rw [List.cons_append, split, if_neg hb, hs, Option.bind_some, hi, Option.map_map]
    rfl

theorem of_append (h : s.Passes (text ++ rest) s'') : ∃ s', s.Passes text s' ∧ s'.Passes rest s'' := by
  induction text generalizing s with
  | nil => exact ⟨s, .nil, h⟩
  | cons x text hi =>
    cases h with
    | cons hb hs h =>
      obtain ⟨s', ht, hr⟩ := hi h
      exact ⟨s', .cons hb hs ht, hr⟩

end Passes

-- One more parenthesis around a text hides its bars.
theorem passes_of_run (h : s.run text = some s') :
    Passes { s with depth := s.depth + 1 } text { s' with depth := s'.depth + 1 } := by
  induction text generalizing s with
  | nil =>
    cases h
    exact .nil
  | cons x rest hi =>
    simp only [run, List.foldlM_cons, Option.bind_eq_bind, Option.bind_eq_some_iff] at h
    obtain ⟨next, hs, h⟩ := h
    refine .cons (by simp [isOutside]) ?_ (hi h)
    simp only [step] at hs ⊢
    cases hq : s.quote with
    | some q =>
      simp only [hq, Option.some.injEq] at hs ⊢
      subst hs
      split <;> simp_all
    | none =>
      simp only [hq] at hs ⊢
      grind

end Scan

theorem isBalanced_iff {text : List Char} : isBalanced text ↔ Scan.run {} text = some {} := by
  simp only [isBalanced, Option.any_eq_true, Scan.isOutside_iff, exists_eq_right]

-- A text that is balanced and has no bar outside of quotes and parentheses.
def Solid (text : List Char) : Prop :=
  Scan.Passes {} text {}

variable {text rest first : List Char} {others : List (List Char)}

theorem Solid.append (h : Solid text) (hr : Solid rest) : Solid (text ++ rest) :=
  Scan.Passes.append h hr

theorem solid_of_forall
    (h : ∀ x ∈ text, x ≠ '\'' ∧ x ≠ '"' ∧ x ≠ '(' ∧ x ≠ ')' ∧ x ≠ '|') : Solid text := by
  induction text with
  | nil => exact .nil
  | cons x rest hi =>
    obtain ⟨⟨h₁, h₂, h₃, h₄, h₅⟩, hr⟩ := List.forall_mem_cons.mp h
    exact .cons (fun hb => h₅ hb.left) (by simp [Scan.step, h₁, h₂, h₃, h₄]) (hi hr)

theorem solid_quoted {quote : Char} {body : List Char} (hq : quote = '\'' ∨ quote = '"')
    (hb : quote ∉ body) : Solid (quote :: body ++ [quote]) := by
  have hi : Scan.Passes ⟨0, some quote⟩ (body ++ [quote]) {} := by
    induction body with
    | nil => exact .cons (by simp [Scan.isOutside]) (by simp [Scan.step]) .nil
    | cons x rest hi =>
      obtain ⟨hx, hr⟩ := not_or.mp (mt List.mem_cons.mpr hb)
      exact .cons (by simp [Scan.isOutside]) (by simp [Scan.step, Ne.symm hx]) (hi hr)
  refine .cons ?_ (by simp [Scan.step, hq]) hi
  rintro ⟨rfl, -⟩
  simp at hq

theorem solid_group {body : List Char} (h : isBalanced body) : Solid ('(' :: body ++ [')']) := by
  have hb : Scan.Passes ⟨1, none⟩ body ⟨1, none⟩ := Scan.passes_of_run (isBalanced_iff.mp h)
  exact .cons (by simp) rfl (hb.append (.cons (by simp) rfl .nil))

theorem splitUnion?_of_solid (h : Solid text) : splitUnion? text = some (text, []) := by
  have hs := Scan.Passes.split_append h []
  simp only [List.append_nil, Scan.split, Scan.isOutside_iff.mpr rfl, if_true, Option.map_some] at hs
  exact hs

theorem splitUnion?_append_bar (h : Solid text) :
    splitUnion? (text ++ '|' :: rest) =
      (splitUnion? rest).map fun (first, others) => (text, first :: others) := by
  rw [splitUnion?, Scan.Passes.split_append h, Scan.split, if_pos ⟨rfl, rfl⟩, Option.map_map]
  simp only [Function.comp_def, List.append_nil, splitUnion?]

theorem splitUnion?_intercalate (h : ∀ part ∈ first :: others, Solid part) :
    splitUnion? (['|'].intercalate (first :: others)) = some (first, others) := by
  induction others generalizing first with
  | nil => exact List.intercalate_singleton ▸ splitUnion?_of_solid (h first (.head _))
  | cons second more hi =>
    obtain ⟨hf, hr⟩ := List.forall_mem_cons.mp h
    rw [List.intercalate_cons_cons, List.append_assoc, List.singleton_append,
      splitUnion?_append_bar hf, hi hr]
    rfl

-- Nothing but bars gets lost when a text is cut.
theorem Scan.eq_intercalate_of_split {s : Scan} (h : s.split text = some (first, others)) :
    text = ['|'].intercalate (first :: others) := by
  induction text generalizing s first others with
  | nil =>
    simp only [split] at h
    split at h <;> cases h
    rfl
  | cons x rest hi =>
    simp only [split] at h
    split at h
    case isTrue hb =>
      simp only [Option.map_eq_some_iff, Prod.mk.injEq] at h
      obtain ⟨⟨second, more⟩, hs, rfl, rfl⟩ := h
      rw [List.intercalate_cons_cons, ← hi hs, hb.left]
      rfl
    case isFalse =>
      simp only [Option.bind_eq_some_iff, Option.map_eq_some_iff, Prod.mk.injEq] at h
      obtain ⟨_, _, ⟨start, more⟩, hs, rfl, rfl⟩ := h
      rw [hi hs]
      cases more <;> simp [List.intercalate_cons_cons]

-- The parts of a text that was cut end outside of quotes and parentheses, and all but the first one start there.
theorem Scan.passes_of_split {s : Scan} (h : s.split text = some (first, others)) :
    s.Passes first {} ∧ ∀ part ∈ others, Solid part := by
  induction text generalizing s first others with
  | nil =>
    rw [split] at h
    split at h
    case isFalse => cases h
    case isTrue ho =>
      cases h
      cases isOutside_iff.mp ho
      exact ⟨.nil, by simp⟩
  | cons x rest hi =>
    simp only [split] at h
    split at h
    case isTrue hb =>
      simp only [Option.map_eq_some_iff, Prod.mk.injEq] at h
      obtain ⟨⟨second, more⟩, hs, rfl, rfl⟩ := h
      cases isOutside_iff.mp hb.right
      obtain ⟨hf, hm⟩ := hi hs
      exact ⟨.nil, List.forall_mem_cons.mpr ⟨hf, hm⟩⟩
    case isFalse hb =>
      simp only [Option.bind_eq_some_iff, Option.map_eq_some_iff, Prod.mk.injEq] at h
      obtain ⟨next, hn, ⟨start, more⟩, hs, rfl, rfl⟩ := h
      obtain ⟨hf, hm⟩ := hi hs
      exact ⟨.cons hb hn hf, hm⟩

theorem solid_of_mem_splitUnion? {part : List Char} (h : splitUnion? text = some (first, others))
    (hp : part ∈ first :: others) : Solid part := by
  obtain ⟨hf, hm⟩ := Scan.passes_of_split h
  rcases List.mem_cons.mp hp with rfl | hp
  case inl => exact hf
  case inr => exact hm part hp

theorem isInfix_intercalate {part : List Char} {parts : List (List Char)} (h : part ∈ parts) :
    part <:+: ['|'].intercalate parts := by
  induction parts with
  | nil => cases h
  | cons start rest hi =>
    cases rest with
    | nil =>
      cases List.mem_singleton.mp h
      exact List.intercalate_singleton ▸ List.infix_rfl
    | cons second more =>
      rw [List.intercalate_cons_cons, List.append_assoc]
      rcases List.mem_cons.mp h with rfl | hm
      case inl => exact (List.prefix_append _ _).isInfix
      case inr => exact (hi hm).trans ((List.suffix_append _ _).trans (List.suffix_append _ _)).isInfix

theorem isInfix_of_mem_splitUnion? {part : List Char} (h : splitUnion? text = some (first, others))
    (hp : part ∈ first :: others) : part <:+: text :=
  Scan.eq_intercalate_of_split h ▸ isInfix_intercalate hp

theorem isBalanced_of_solid (h : Solid text) : isBalanced text :=
  isBalanced_iff.mpr (Scan.Passes.run_eq h)

theorem isBalanced_intercalate {parts : List (List Char)} (h : ∀ part ∈ parts, Solid part) :
    isBalanced (['|'].intercalate parts) := by
  induction parts with
  | nil => rfl
  | cons part rest hi =>
    obtain ⟨hp, hr⟩ := List.forall_mem_cons.mp h
    cases rest with
    | nil => exact List.intercalate_singleton ▸ isBalanced_of_solid hp
    | cons second more =>
      rw [List.intercalate_cons_cons, List.append_assoc, isBalanced_iff, Scan.Passes.run_append hp]
      exact isBalanced_iff.mp (hi hr)

theorem groupBody?_group {body : List Char} (h : isBalanced body) :
    groupBody? ('(' :: body ++ [')']) = some body := by
  simp [groupBody?, h]

theorem groupBody?_eq_none (h : text.head? ≠ some '(') : groupBody? text = none := by
  cases hg : groupBody? text with
  | none      => rfl
  | some body => exact absurd (by simp [eq_of_groupBody? hg]) h

end JsonShape
