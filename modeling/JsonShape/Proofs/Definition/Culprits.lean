import Mathlib
import JsonShape.Proofs.Definition.Grammar

namespace JsonShape

-- White space leaves a scan where it is.
theorem Padded.passes {core text : List Char} (h : Padded core text) (hs : Solid text) :
    ∃ s, Scan.Passes {} core s := by
  obtain @⟨before, after, hb, -⟩ := h
  rw [Solid, List.append_assoc] at hs
  obtain ⟨s, hw, hs⟩ := hs.of_append
  cases Option.some.inj ((solid_of_isBlank hb).run_eq.symm.trans hw.run_eq)
  obtain ⟨s, hc, -⟩ := hs.of_append
  exact ⟨s, hc⟩

namespace Expression

variable {declared : String → Bool} {text : List Char} {e : DefinitionError}

-- A text that the parser takes for one member: no white space is around it, and it is not cut at a bar.
structure IsMember (text : List Char) : Prop where
  trim_eq : trim text = text
  passes  : ∃ s, Scan.Passes {} text s

namespace IsMember

theorem of_mem_splitUnion? {first part : List Char} {others : List (List Char)}
    (h : splitUnion? text = some (first, others)) (hp : part ∈ first :: others) : IsMember (trim part) where
  trim_eq := trim_trim
  passes  := (padded_trim part).passes (solid_of_mem_splitUnion? h hp)

theorem not_isBlank_head (h : IsMember text) : ∀ x ∈ text.head?, ¬isBlank x := by
  intro x hx hb
  cases text with
  | nil => cases hx
  | cons y rest =>
    cases Option.some.inj hx
    have hl := length_trim_le rest
    have ht := congrArg List.length h.trim_eq
    rw [trim, trimStart, List.dropWhile_cons_of_pos hb, ← trimStart, ← trim, List.length_cons] at ht
    omega

theorem item {start : List Char} (h : IsMember text) (hd : dropEnd? text ['[', ']'] = some start) :
    IsMember (trimEnd start) where
  trim_eq := by
    obtain ⟨rest, rfl⟩ := isPrefix_of_dropEnd? hd
    have hh : ∀ x ∈ (trimEnd start).head?, ¬isBlank x := fun x hx =>
      h.not_isBlank_head x (by rw [List.head?_append, Option.mem_def.mp hx, Option.some_or, Option.mem_some])
    rw [trim, trimStart_eq_self hh, trimEnd_trimEnd]
  passes  := by
    obtain ⟨rest, rfl⟩ := isPrefix_of_dropEnd? hd
    obtain ⟨s, hs⟩ := h.passes
    obtain ⟨s, hi, -⟩ := hs.of_append
    exact ⟨s, hi⟩

-- On its own, a member is not balanced, or it is the one member of a union.
theorem parseUnion_eq (h : IsMember text) (hm : parseMember declared text = .error e)
    (he : e = .unknownType (.ofList text)) : parseUnion declared text = .error e := by
  obtain ⟨s, hp⟩ := h.passes
  have hs := hp.split_append []
  rw [List.append_nil, ← splitUnion?] at hs
  by_cases ho : s.isOutside
  case neg =>
    rw [Scan.split, if_neg ho, Option.map_none, ← h.trim_eq] at hs
    rw [parseUnion_of_unbalanced hs, h.trim_eq, he]
  case pos =>
    rw [Scan.split, if_pos ho, Option.map_some] at hs
    rw [parseUnion_of_single (h.trim_eq.symm ▸ hs), h.trim_eq, hm]

end IsMember

-- The fragment stands in the text, without white space around it, and is refused on its own with an error that
-- names it.
structure IsCulprit (declared : String → Bool) (text fragment : List Char) : Prop where
  isInfix  : fragment <:+: text
  trim_eq  : trim fragment = fragment
  parse_eq : parseUnion declared fragment = .error (.unknownType (.ofList fragment))

-- The error names a culprit of the text.
def Blames (declared : String → Bool) (text : List Char) (e : DefinitionError) : Prop :=
  ∃ fragment, e = .unknownType (.ofList fragment) ∧ IsCulprit declared text fragment

theorem Blames.within {whole : List Char} (h : Blames declared text e) (hi : text <:+: whole) :
    Blames declared whole e := by
  obtain ⟨fragment, he, hc⟩ := h
  exact ⟨fragment, he, hc.isInfix.trans hi, hc.trim_eq, hc.parse_eq⟩

theorem IsMember.blames (h : IsMember text) (hm : parseMember declared text = .error e)
    (he : e = .unknownType (.ofList text)) : Blames declared text e :=
  ⟨text, he, List.infix_rfl, h.trim_eq, he ▸ h.parseUnion_eq hm he⟩

-- The induction goes with the parser. What it takes for a member stays one on the way to the culprit: the parts
-- of a union are members, and so is the item of a list.
mutual

theorem blames_of_parseUnion {text : List Char} {e : DefinitionError} (h : parseUnion declared text = .error e) :
    Blames declared text e := by
  have hl := length_trim_le text
  rcases hs : splitUnion? (trim text) with - | ⟨first, - | ⟨second, others⟩⟩
  case none =>
    have hu : parseUnion declared (trim text) = .error (.unknownType (.ofList (trim text))) := by
      rw [parseUnion_of_unbalanced (trim_trim.symm ▸ hs), trim_trim]
    rw [parseUnion_of_unbalanced hs] at h
    cases h
    exact ⟨trim text, rfl, (padded_trim text).isInfix, trim_trim, hu⟩
  case some.nil =>
    rw [parseUnion_of_single hs] at h
    have hw : trim text = first := by simpa using Scan.eq_intercalate_of_split hs
    have hm : IsMember (trim text) := trim_trim ▸ .of_mem_splitUnion? hs (hw ▸ .head _)
    exact (blames_of_parseMember hm h).within (padded_trim text).isInfix
  case some.cons =>
    have := length_of_splitUnion? hs
    rw [parseUnion_of_several hs] at h
    cases hp : parseMembers declared (first :: second :: others) with
    | ok nodes =>
      rw [hp] at h
      cases h
    | error error =>
      rw [hp] at h
      cases h
      have hm : ∀ part ∈ first :: second :: others, IsMember (trim part) := fun part => .of_mem_splitUnion? hs
      obtain ⟨part, hi, hb⟩ := blames_of_parseMembers hm hp
      exact hb.within ((isInfix_of_mem_splitUnion? hs hi).trans (padded_trim text).isInfix)
termination_by 3 * text.length + 4
decreasing_by
  · omega
  · simp only [List.length_cons] at *; omega

theorem blames_of_parseMembers {parts : List (List Char)} {e : DefinitionError}
    (hm : ∀ part ∈ parts, IsMember (trim part)) (h : parseMembers declared parts = .error e) :
    ∃ part ∈ parts, Blames declared part e := by
  match parts with
  | [] =>
    rw [parseMembers] at h
    cases h
  | part :: rest =>
    have := length_trim_le part
    obtain ⟨hp, hr⟩ := List.forall_mem_cons.mp hm
    rw [parseMembers] at h
    split at h
    case h_1 error he =>
      cases h
      exact ⟨part, .head _, (blames_of_parseMember hp he).within (padded_trim part).isInfix⟩
    case h_2 =>
      split at h
      case h_2 => cases h
      case h_1 error he =>
        cases h
        obtain ⟨other, ho, hb⟩ := blames_of_parseMembers hr he
        exact ⟨other, .tail _ ho, hb⟩
termination_by 3 * (parts.flatten.length + parts.length)
decreasing_by all_goals simp only [List.flatten_cons, List.length_append, List.length_cons] at *; omega

theorem blames_of_parseMember {text : List Char} {e : DefinitionError} (hm : IsMember text)
    (h : parseMember declared text = .error e) : Blames declared text e := by
  have hw := h
  rw [parseMember] at h
  split at h
  case h_1 item hl =>
    have := length_of_dropEnd? hl
    split at h
    case h_2 => cases h
    case h_1 error he =>
      cases h
      exact (blames_of_parseMember (hm.item hl) he).within (isPrefix_of_dropEnd? hl).isInfix
  case h_2 =>
    split at h
    case h_1 body hg =>
      have := length_of_groupBody? hg
      exact (blames_of_parseUnion h).within (eq_of_groupBody? hg ▸ List.infix_append ['('] body [')'])
    case h_2 =>
      split at h
      case h_1 => cases h
      case h_2 =>
        cases h
        exact hm.blames hw rfl
termination_by 3 * text.length
decreasing_by
  · simp only [List.length_cons, List.length_nil] at *; omega
  · omega

end

theorem exists_culprit_of_parse {text : String} (h : parse declared text = .error e) :
    ∃ fragment, e = .unknownType (.ofList fragment) ∧ IsCulprit declared text.toList fragment := by
  have hi := (padded_trim text.toList).isInfix
  simp only [parse] at h
  split at h
  case h_2 => exact (blames_of_parseUnion h).within hi
  case h_1 inner hd =>
    have hp : inner <+: trim text.toList := ⟨_, (eq_append_of_dropEnd? hd).symm⟩
    cases hu : parseUnion declared inner <;> rw [hu] at h <;> cases h
    exact (blames_of_parseUnion hu).within (hp.isInfix.trans hi)

-- The fragment is the item of a list in a union in parentheses, in a list that is optional.
theorem exists_culprit_of_parse_nested :
    parse ["user"].contains " ( 'x|(' | boolean[ [] | user ) []? " = .error (.unknownType "boolean[") ∧
      ∃ fragment, DefinitionError.unknownType "boolean[" = .unknownType (.ofList fragment) ∧
        IsCulprit ["user"].contains " ( 'x|(' | boolean[ [] | user ) []? ".toList fragment := by
  have h : parse ["user"].contains " ( 'x|(' | boolean[ [] | user ) []? " =
      .error (.unknownType "boolean[") := by cbv
  exact ⟨h, exists_culprit_of_parse h⟩

end Expression

end JsonShape
