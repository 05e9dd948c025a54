import JsonShape.Proofs.Generation.Productive
import JsonShape.Proofs.Validation.Belongs

namespace JsonShape

open Synthesis Validation

-- The node says somewhere that nothing may be there, other than by a question mark.
def Node.MentionsAbsence (node : Node) : Prop :=
  Part (.primitive .undefined) node ∨ Part (.primitive .void) node

theorem Node.MentionsAbsence.within {inner outer : Node} (h : inner.MentionsAbsence)
    (hp : ∀ {part}, Part part inner → Part part outer) : outer.MentionsAbsence :=
  h.imp hp hp

section Slots

open Definition

variable {slots : List Node} {slot : Node}

-- A tuple that is long enough fills each slot that must be filled.
theorem exists_mem_zip {items : List Json} (hr : ¬requiredFollowsOptional slots)
    (hl : requiredSlots slots ≤ items.length) (hm : slot ∈ slots) (ho : ¬slot.isOptional) :
    ∃ item, (item, slot) ∈ items.zip slots := by
  induction slots generalizing items with
  | nil => cases hm
  | cons first rest hi =>
    by_cases hf : first.isOptional
    case pos =>
      simp only [requiredFollowsOptional, List.dropWhile_cons, hf] at hr
      exact absurd (List.any_eq_true.mpr ⟨slot, hm, by simpa using ho⟩) hr
    case neg =>
      simp only [requiredFollowsOptional, List.dropWhile_cons, hf] at hr
      simp only [requiredSlots, List.filter_cons, hf] at hl
      cases items with
      | nil => cases hl
      | cons item others =>
        rcases List.mem_cons.mp hm with rfl | hm
        · exact ⟨item, .head _⟩
        · obtain ⟨other, ho⟩ := hi hr (Nat.le_of_succ_le_succ hl) hm
          exact ⟨other, .tail _ ho⟩

end Slots

section Inhabited

variable {space : Typespace} {node : Node}

-- Every name stands for a node of a definition that neither mentions absence nor is optional.
structure Typespace.Definite (space : Typespace) : Prop where
  compiled : space.Compiled
  definite : ∀ d ∈ space.declarations, ¬d.node.MentionsAbsence ∧ ¬d.node.isOptional

theorem Typespace.Definite.of_resolve? {name : String} (hs : space.Definite)
    (h : space.resolve? name = some node) :
    node.WellFormed space.isDeclared ∧ ¬node.MentionsAbsence ∧ ¬node.isOptional := by
  obtain ⟨d, hd, _, he⟩ := Declarations.exists_mem_of_resolve? h
  exact ⟨hs.compiled.wellFormed_of_resolve? h, he ▸ hs.definite d hd⟩

-- Absence that is not mentioned is a keyword for any value, or stands behind a name or in a union.
theorem exists_productive_of_admitsAbsence (hs : space.Definite)
    (hw : node.WellFormed space.isDeclared) (hn : ¬node.MentionsAbsence) (ho : ¬node.isOptional)
    (h : AdmitsAbsence space node) :
    ∃ depth, Productive space.declarations depth node := by
  induction h with
  | optional => exact absurd rfl ho
  | @primitive keyword hk =>
    have hv : ofKeyword keyword = .ok (some .null) := by
      cases keyword
      case any       => rfl
      case unknown   => rfl
      case undefined => exact absurd (.inl .self) hn
      case void      => exact absurd (.inr .self) hn
      all_goals cases Keyword.admitsAbsence_iff.mpr hk
    exact ⟨0, .primitive hv⟩
  | union hm _ hi =>
    have he := hw.of_union _ hm
    have hn' := mt (.within · (.union hm)) hn
    obtain ⟨depth, h⟩ := hi (.expression he) hn' he.not_optional
    exact ⟨depth, .union hm h⟩
  | reference hr _ hi =>
    obtain ⟨hw, hn, ho⟩ := hs.of_resolve? hr
    obtain ⟨depth, h⟩ := hi hw hn ho
    exact ⟨depth + 1, .reference hr h⟩

theorem exists_productive_of_belongs {ignoreExtraneous : Bool} {value : Json} (hs : space.Definite)
    (hw : node.WellFormed space.isDeclared) (hn : ¬node.MentionsAbsence)
    (h : Belongs space ignoreExtraneous value node) :
    ∃ depth, Productive space.declarations depth node := by
  induction h with
  | @primitive value keyword hk =>
    obtain ⟨result, hr⟩ : ∃ result, ofKeyword keyword = .ok (some result) := by
      cases keyword
      case undefined | symbol | void | never | function => cases hk
      all_goals exact ⟨_, rfl⟩
    exact ⟨0, .primitive hr⟩
  | literal => exact ⟨0, .literal⟩
  | reference hr _ hi =>
    obtain ⟨hw, hn, _⟩ := hs.of_resolve? hr
    obtain ⟨depth, h⟩ := hi hw hn
    exact ⟨depth + 1, .reference hr h⟩
  | list => exact ⟨0, .list⟩
  | @tuple slots items hl _ _ hi =>
    obtain ⟨hr, hw⟩ := hw.of_tuple
    have hp : ∀ slot ∈ slots, ¬slot.isOptional → ∃ depth, Productive space.declarations depth slot := by
      intro slot hm ho
      obtain ⟨item, hz⟩ := exists_mem_zip hr (requiredSlots_eq_leastLength ▸ hl) hm ho
      exact hi (item, slot) hz (hw slot hm) (mt (.within · (.tuple hm)) hn)
    obtain ⟨depth, h⟩ := Productive.exists_depth hp
    exact ⟨depth, .tuple h⟩
  | union hm _ hi =>
    have hn' := mt (.within · (.union hm)) hn
    obtain ⟨depth, h⟩ := hi (.expression (hw.of_union _ hm)) hn'
    exact ⟨depth, .union hm h⟩
  | optional _ hi =>
    obtain ⟨depth, h⟩ := hi hw.of_optional (mt (.within · .optional) hn)
    exact ⟨depth, .optional h⟩
  | @struct members entries _ ha _ hi =>
    obtain ⟨_, hw⟩ := hw.of_struct
    have hp : ∀ member ∈ members, ¬member.snd.isOptional →
        ∃ depth, Productive space.declarations depth member.snd := by
      intro member hm ho
      have hw' := Node.required_of_not_optional ho ▸ hw member hm
      have hn' : ¬member.snd.MentionsAbsence := mt (.within · (.struct hm)) hn
      cases hl : entries.lookup member.fst with
      | some value => exact hi member hm value hl hw' hn'
      | none       => exact exists_productive_of_admitsAbsence hs hw' hn' ho (ha member hm hl)
    obtain ⟨depth, h⟩ := Productive.exists_depth (List.forall_mem_map.mpr hp)
    exact ⟨depth, .struct (List.forall_mem_map.mp h)⟩

theorem exists_generate_of_validate {raw definition value : Json} {options : ValidateOptions}
    (hs : Typespace.ofJson raw = .ok space)
    (hd : ∀ d ∈ space.declarations, ¬d.node.MentionsAbsence ∧ ¬d.node.isOptional)
    (hp : space.parse definition = .ok node) (hn : ¬node.MentionsAbsence)
    (hv : validate space options node value = []) :
    ∃ result, generate space {} node = .ok result := by
  have hs : space.Definite := ⟨Typespace.compiled_of_ofJson hs, hd⟩
  have hw := Definition.wellFormed_of_parse hp
  obtain ⟨depth, h⟩ := exists_productive_of_belongs hs hw hn (belongs_of_accepts hv)
  obtain ⟨result, hr⟩ : ∃ result, ofNode space.declarations none {} node = .ok (some result) :=
    exists_of_productive h fun _ hm => absurd hm List.not_mem_nil
  exact ⟨result, by simp only [generate, hr]⟩

-- A chain has a value, so generation finds one, though its first try is to follow the chain without
-- end.
theorem exists_generate_of_validate_chain :
    ∃ space,
      Typespace.ofJson (.object [("chain", .object [("next", .string "chain|null")])]) = .ok space ∧
      (∀ d ∈ space.declarations, ¬d.node.MentionsAbsence ∧ ¬d.node.isOptional) ∧
      space.parse (.string "chain") = .ok (.reference "chain") ∧
      ¬(Node.reference "chain").MentionsAbsence ∧
      validate space {} (.reference "chain") (.object [("next", .null)]) = [] ∧
      ∃ result, generate space {} (.reference "chain") = .ok result := by
  have ha : Declarations.aliasCycle?
      [⟨"chain", .object [("next", .string "chain|null")],
        .struct [("next", .union [.reference "chain", .primitive .null])]⟩] = none := by cbv
  refine ⟨⟨_, AliasStep.wellFounded_of_aliasCycle? ha⟩, ?hs, ?hd, ?hp, ?hn, ?hv,
    exists_generate_of_validate ?hs ?hd ?hp ?hn ?hv⟩
  case hs => exact Typespace.ofJson_object_eq_ok_iff.mpr ⟨by cbv, by cbv, ha⟩
  case hd => simp [Node.MentionsAbsence, Node.isOptional]
  case hp => cbv
  case hn => simp [Node.MentionsAbsence]
  case hv =>
    refine accepts_reference.mpr ⟨_, rfl, accepts_struct.mpr ⟨_, rfl, fun member hm => ?_, ?_⟩⟩
    case refine_2 => exact .inr fun _ => id
    cases List.mem_singleton.mp hm
    constructor
    case present =>
      intro value hl
      cases hl
      exact accepts_union.mpr ⟨.primitive .null, .tail _ (.head _), accepts_primitive.mpr rfl⟩
    case absent =>
      intro hl
      cases hl

end Inhabited

end JsonShape
