import JsonShape.Text.Blank

namespace JsonShape

variable {text ending start : List Char}

theorem trimStart_eq_self (h : ∀ x ∈ text.head?, ¬isBlank x) : trimStart text = text := by
  cases text with
  | nil => rfl
  | cons x rest => exact List.dropWhile_cons_of_neg (h x rfl)

theorem trimEnd_eq_self (h : ∀ x ∈ text.getLast?, ¬isBlank x) : trimEnd text = text := by
  have hr : text.reverse.dropWhile isBlank = text.reverse :=
    trimStart_eq_self fun x hx => h x (List.head?_reverse ▸ hx)
  rw [trimEnd, hr, List.reverse_reverse]

theorem trim_eq_self (hh : ∀ x ∈ text.head?, ¬isBlank x) (hl : ∀ x ∈ text.getLast?, ¬isBlank x) :
    trim text = text := by
  rw [trim, trimStart_eq_self hh, trimEnd_eq_self hl]

theorem trimStart_append (h : ∀ x ∈ start, isBlank x) : trimStart (start ++ text) = trimStart text :=
  List.dropWhile_append_of_pos h

theorem trimEnd_append (h : ∀ x ∈ ending, isBlank x) : trimEnd (text ++ ending) = trimEnd text := by
  have hr : ∀ x ∈ ending.reverse, isBlank x := fun x hx => h x (List.mem_reverse.mp hx)
  rw [trimEnd, List.reverse_append, List.dropWhile_append_of_pos hr, trimEnd]

theorem trim_append (h : ∀ x ∈ ending, isBlank x) : trim (text ++ ending) = trim text := by
  rw [trim, trimStart, List.dropWhile_append]
  split
  case isTrue hn =>
    -- There is nothing but white space.
    have he : trimStart (ending ++ []) = [] := trimStart_append h
    have ht : trimStart text = [] := List.isEmpty_iff.mp hn
    rw [List.append_nil, trimStart] at he
    rw [he, trim, ht]
  case isFalse => exact trimEnd_append h

-- The text is the core with white space around it.
inductive Padded (core : List Char) : List Char → Prop
  | intro : (∀ x ∈ before, isBlank x) → (∀ x ∈ after, isBlank x) → Padded core (before ++ core ++ after)

namespace Padded

variable {core middle : List Char}

theorem refl : Padded core core := by
  have h : Padded core ([] ++ core ++ []) := .intro (by simp) (by simp)
  simpa using h

theorem before (h : ∀ x ∈ start, isBlank x) : Padded core (start ++ core) := by
  have h : Padded core (start ++ core ++ []) := .intro h (by simp)
  simpa using h

theorem after (h : ∀ x ∈ ending, isBlank x) : Padded core (core ++ ending) := by
  have h : Padded core ([] ++ core ++ ending) := .intro (by simp) h
  simpa using h

theorem trans (h : Padded core middle) (ht : Padded middle text) : Padded core text := by
  obtain @⟨b₁, a₁, hb₁, ha₁⟩ := h
  obtain @⟨b₂, a₂, hb₂, ha₂⟩ := ht
  have h : Padded core ((b₂ ++ b₁) ++ core ++ (a₁ ++ a₂)) :=
    .intro (List.forall_mem_append.mpr ⟨hb₂, hb₁⟩) (List.forall_mem_append.mpr ⟨ha₁, ha₂⟩)
  simpa using h

theorem trim_eq (h : Padded core text) : trim text = trim core := by
  obtain ⟨hb, ha⟩ := h
  rw [trim_append ha, trim, trimStart_append hb, trim]

theorem isInfix (h : Padded core text) : core <:+: text := by
  obtain @⟨before, after, -, -⟩ := h
  exact List.infix_append before core after

end Padded

theorem padded_trimEnd (text : List Char) : Padded (trimEnd text) text := by
  have h : ∀ x ∈ (text.reverse.takeWhile isBlank).reverse, isBlank x := fun x hx =>
    List.all_eq_true.mp List.all_takeWhile x (List.mem_reverse.mp hx)
  have hp : Padded (trimEnd text) (trimEnd text ++ _) := .after h
  rwa [trimEnd, ← List.reverse_append, List.takeWhile_append_dropWhile, List.reverse_reverse] at hp

theorem padded_trim (text : List Char) : Padded (trim text) text := by
  have h : Padded (trimStart text) (text.takeWhile isBlank ++ trimStart text) :=
    .before (List.all_eq_true.mp List.all_takeWhile)
  rw [trimStart, List.takeWhile_append_dropWhile] at h
  exact (padded_trimEnd _).trans h

theorem trim_trim : trim (trim text) = trim text :=
  (padded_trim text).trim_eq.symm

theorem trimEnd_trimEnd : trimEnd (trimEnd text) = trimEnd text := by
  refine trimEnd_eq_self fun x hx hb => ?_
  have hd := List.head?_dropWhile_not isBlank text.reverse
  rw [trimEnd, List.getLast?_reverse] at hx
  rw [Option.mem_def.mp hx] at hd
  exact absurd hb (by simpa using hd)

theorem trimEnd_isPrefix : trimEnd text <+: text := by
  have h : text.reverse.dropWhile isBlank <:+ text.reverse := List.dropWhile_suffix isBlank
  have hp := List.reverse_prefix.mpr h
  rwa [List.reverse_reverse] at hp

theorem dropEnd?_append : dropEnd? (start ++ ending) ending = some start := by
  simp [dropEnd?]

theorem isPrefix_of_dropEnd? (h : dropEnd? text ending = some start) : trimEnd start <+: text :=
  trimEnd_isPrefix.trans ⟨ending, (eq_append_of_dropEnd? h).symm⟩

theorem dropEnd?_eq_none (ending : List Char) {last : Char} (h : text.getLast? ≠ some last) :
    dropEnd? text (ending ++ [last]) = none := by
  cases hd : dropEnd? text (ending ++ [last]) with
  | none => rfl
  | some start =>
    have he := eq_append_of_dropEnd? hd
    exact absurd (by simp [he]) h

end JsonShape
