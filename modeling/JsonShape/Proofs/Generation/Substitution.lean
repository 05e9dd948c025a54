import Mathlib
import JsonShape.Proofs.Generation.Soundness
import JsonShape.Proofs.Validation.Faults

namespace JsonShape

open Validation

namespace Synthesis

-- Generation puts the substitute at this path of what the node gives.
inductive Places (space : Declarations) (substitute : Json) : Context → Node → Path → Prop
  | cycle     : (ctx.reference space name = .cycle node cycle) → (cycle.kind = .required) →
      Places space substitute ctx (.reference name) []
  | reference : (ctx.reference space name = .node node inside) →
      (Places space substitute inside node path) → Places space substitute ctx (.reference name) path
  | tuple     : ((slots.takeWhile fun slot => ¬slot.isOptional)[i]? = some slot) →
      (Places space substitute ctx slot path) → Places space substitute ctx (.tuple slots) (.index i :: path)
  | union     : (Picks space (some substitute) ctx value members member hasMore) →
      (Places space substitute (ctx.alternative hasMore) member path) →
      Places space substitute ctx (.union members) path
  | optional  : (Places space substitute ctx node path) → Places space substitute ctx (.optional node) path
  | struct    : (member ∈ members) → (¬member.snd.isOptional) →
      (Places space substitute ctx member.snd path) →
      Places space substitute ctx (.struct members) (.key member.fst :: path)

end Synthesis

open Synthesis

section Places

variable {space : Typespace} {substitute value : Json} {ctx : Context} {node : Node} {path : Path}

theorem Synthesis.Places.exists_at? {result : Option Json} (hc : space.Compiled)
    (hw : node.WellFormed space.isDeclared) (h : Places space.declarations substitute ctx node path)
    (hv : ofNode space.declarations (some substitute) ctx node = .ok result) :
    ∃ value, result = some value ∧ value.at? path = some substitute := by
  induction h generalizing result with
  | cycle hr hk =>
    rw [ofNode_reference_of_cycle hr] at hv
    exact ⟨substitute, (ofCycle_eq_ok hv).right.right, Json.at?_nil⟩
  | reference hr _ hi =>
    rw [ofNode_reference_of_node hr] at hv
    exact hi (hc.wellFormed_of_resolve? (Context.reference_eq_node_iff.mp hr).left) hv
  | tuple hs _ hi =>
    obtain ⟨items, ho, rfl⟩ := ofNode_tuple_eq_ok hv
    obtain ⟨item, hm, hv⟩ := getElem?_ofSlots ho hs
    have hm' := (List.takeWhile_subset _) (List.mem_of_getElem? hs)
    obtain ⟨_, he, hp⟩ := hi (hw.of_tuple.right _ hm') hv
    cases he
    exact ⟨_, rfl, (Json.at?_index hm).trans hp⟩
  | union hp _ hi =>
    rw [ofNode, ofUnion_of_picks hp] at hv
    cases hv
    exact hi (.expression (hw.of_union _ hp.mem)) hp.ofNode_eq
  | optional _ hi =>
    rw [ofNode] at hv
    exact hi hw.of_optional hv
  | struct hm ho _ hi =>
    obtain ⟨entries, hs, rfl⟩ := ofNode_struct_eq_ok hv
    obtain ⟨hd, hf⟩ := hw.of_struct
    have hl := lookup_of_ofMembers hd hs _ hm
    rw [if_neg ho] at hl
    obtain ⟨_, hv, hp⟩ := hi (Node.required_of_not_optional ho ▸ hf _ hm) hl
    exact ⟨_, rfl, (Json.at?_key hv).trans hp⟩

end Places

-- A validation with the same names on the way finds errors in what generation gives only where its
-- paths lead to a substitute or go on from one.
def FailsAtPlaces (space : Typespace) (ignoreExtraneous : Bool) (substitute : Json) (ctx : Context)
    (node : Node) : Prop :=
  ∀ value, ofNode space.declarations (some substitute) ctx node = .ok (some value) →
    ∀ other : Context, other.seen = ctx.seen →
      ∀ label, ∀ e ∈ check space ignoreExtraneous other label value node,
        ∃ path, Places space.declarations substitute ctx node path ∧ e.path.Meets path

namespace FailsAtPlaces

variable {space : Typespace} {ignoreExtraneous : Bool} {substitute : Json} {ctx : Context}

theorem of_accepts {node : Node}
    (h : ∀ value, ofNode space.declarations (some substitute) ctx node = .ok (some value) →
      ∀ other, Accepts space ignoreExtraneous other value node) :
    FailsAtPlaces space ignoreExtraneous substitute ctx node := by
  intro value hv other _ label e he
  rw [(check_label_eq_nil_iff node).mpr (h value hv other)] at he
  cases he

theorem primitive {keyword : Keyword} :
    FailsAtPlaces space ignoreExtraneous substitute ctx (.primitive keyword) := by
  refine of_accepts fun value hv other => ?_
  rw [ofNode] at hv
  exact InStep.primitive.value value (by rw [ofNode, hv]) other rfl

theorem literal {l : Literal} (hl : l ≠ .number .infinite) :
    FailsAtPlaces space ignoreExtraneous substitute ctx (.literal l) := by
  refine of_accepts fun value hv other => ?_
  rw [ofNode] at hv
  exact (InStep.literal hl).value value (by rw [ofNode, hv]) other rfl

theorem list {item : Node} : FailsAtPlaces space ignoreExtraneous substitute ctx (.list item) := by
  refine of_accepts fun value hv other => ?_
  rw [ofNode] at hv
  exact InStep.list.value value (by rw [ofNode, hv]) other rfl

theorem reference {name : String}
    (hi : ∀ node inside, ctx.reference space.declarations name = .node node inside →
      FailsAtPlaces space ignoreExtraneous substitute inside node) :
    FailsAtPlaces space ignoreExtraneous substitute ctx (.reference name) := by
  intro value hv other ho label e he
  cases hr : ctx.reference space.declarations name with
  | node node inside =>
    rw [ofNode_reference_of_node hr] at hv
    obtain ⟨hs, hn, hin⟩ := Context.reference_eq_node_iff.mp hr
    rw [check_reference_of_resolve? hs] at he
    obtain ⟨path, hp, hm⟩ := hi node inside hr value hv _ (by simp [Context.entering, ho, hn, hin]) _ e he
    exact ⟨path, .reference hr hp, hm⟩
  | cycle node cycle =>
    rw [ofNode_reference_of_cycle hr] at hv
    exact ⟨[], .cycle hr (ofCycle_eq_ok hv).left, .inr List.nil_prefix⟩
  | unresolved =>
    rw [ofNode_reference_of_unresolved hr] at hv
    cases hv

theorem tuple {slots : List Node} (hr : ¬Definition.requiredFollowsOptional slots)
    (hi : ∀ slot ∈ slots, FailsAtPlaces space ignoreExtraneous substitute ctx slot) :
    FailsAtPlaces space ignoreExtraneous substitute ctx (.tuple slots) := by
  intro value hv other ho label e he
  obtain ⟨items, hs, hv⟩ := ofNode_tuple_eq_ok hv
  cases hv
  obtain ⟨hl, hu⟩ := length_of_ofSlots hr hs
  have hb : ¬(items.length < requiredSlots slots ∨ slots.length < items.length) := by omega
  simp only [check, if_neg hb] at he
  obtain ⟨i, item, slot, hv, ht, inner, hm, rfl⟩ := exists_of_mem_checkSlots he
  have ht' := getElem?_takeWhile_of_ofSlots hs hv ht
  obtain ⟨_, hv', hn⟩ := getElem?_ofSlots hs ht'
  cases hv.symm.trans hv'
  have hq : ¬slot.isOptional := by simpa using List.mem_takeWhile_imp (List.mem_of_getElem? ht')
  rw [Node.required_of_not_optional hq] at hm
  obtain ⟨path, hp, hm⟩ := hi slot (List.mem_of_getElem? ht) item hn other ho none inner hm
  refine ⟨.index i :: path, .tuple ht' hp, ?_⟩
  rw [Nat.zero_add]
  exact hm.cons _

theorem union {members : List Node}
    (hi : ∀ member ∈ members, ∀ hasMore,
      FailsAtPlaces space ignoreExtraneous substitute (ctx.alternative hasMore) member) :
    FailsAtPlaces space ignoreExtraneous substitute ctx (.union members) := by
  intro value hv other ho label e he
  rw [ofNode] at hv
  obtain ⟨member, hasMore, hp⟩ := exists_picks_of_ofUnion hv
  have ho' : other.seen = (ctx.alternative hasMore).seen := by rw [Context.seen_alternative, ho]
  rw [check] at he
  split at he
  case h_1 => cases he
  case h_2 reasons hu =>
    cases List.mem_singleton.mp he
    -- The member that was picked refuses the value, too, and for a substitute in it.
    have hn : ¬Accepts space ignoreExtraneous other value member := by
      intro ha
      have hnone := checkUnion_eq_none_iff.mpr ⟨member, hp.mem, ha⟩
      cases hu.symm.trans hnone
    obtain ⟨inner, hm⟩ := List.exists_mem_of_ne_nil _ hn
    obtain ⟨path, hpath, _⟩ := hi member hp.mem hasMore value hp.ofNode_eq other ho' none inner hm
    exact ⟨path, .union hp hpath, .inl List.nil_prefix⟩

theorem optional {inner : Node} (hi : FailsAtPlaces space ignoreExtraneous substitute ctx inner) :
    FailsAtPlaces space ignoreExtraneous substitute ctx (.optional inner) := by
  intro value hv other ho label e he
  rw [ofNode] at hv
  rw [check] at he
  obtain ⟨path, hp, hm⟩ := hi value hv other ho label e he
  exact ⟨path, .optional hp, hm⟩

theorem struct {members : List (String × Node)} (hd : Members.Distinct members)
    (hi : ∀ member ∈ members, ¬member.snd.isOptional →
      FailsAtPlaces space ignoreExtraneous substitute ctx member.snd) :
    FailsAtPlaces space ignoreExtraneous substitute ctx (.struct members) := by
  intro value hv other ho label e he
  obtain ⟨entries, hs, hv⟩ := ofNode_struct_eq_ok hv
  cases hv
  have hk : checkKeys ignoreExtraneous entries members = [] :=
    checkKeys_eq_nil_iff.mpr (.inr (names_of_ofMembers hs))
  simp only [check, hk, List.append_nil] at he
  obtain ⟨member, hm, hf⟩ := exists_of_mem_checkMembers he
  have hl := lookup_of_ofMembers hd hs member hm
  -- Members that may be missing are, and no error comes from them.
  have hn : ¬member.snd.isOptional := by
    intro hn
    rw [if_pos hn] at hl
    rcases hf with ⟨value, hv, _⟩ | ⟨_, ha⟩
    · cases hl.symm.trans hv
    · exact ha (Context.acceptsAbsence_of_isOptional hn)
  rw [if_neg hn] at hl
  rcases hf with ⟨value, hv, inner, hf, rfl⟩ | ⟨hv, ha⟩
  case inl =>
    rw [Node.required_of_not_optional hn] at hf
    obtain ⟨path, hp, hm'⟩ := hi member hm hn value (hv ▸ hl) other ho none inner hf
    exact ⟨.key member.fst :: path, .struct hm hn hp, hm'.cons _⟩
  case inr => exact absurd (acceptsAbsence_of_ofNode (hv ▸ hl) ho) ha

end FailsAtPlaces

section Generate

variable {space : Typespace}

theorem failsAtPlaces_of_wellFormed (hc : space.Compiled)
    (hs : ∀ d ∈ space.declarations, ¬Node.Part (.literal (.number .infinite)) d.node)
    {ignoreExtraneous : Bool} {substitute : Json} {ctx : Context} {node : Node}
    (hw : node.WellFormed space.isDeclared) (hn : ¬Node.Part (.literal (.number .infinite)) node) :
    FailsAtPlaces space ignoreExtraneous substitute ctx node := by
  refine generation_induction hc hs
    ?primitive ?literal ?reference ?list ?tuple ?union ?optional ?struct hw hn
  case primitive => exact fun _ _ => .primitive
  case literal   => exact fun _ _ => .literal
  case reference => exact fun _ _ => .reference
  case list      => exact fun _ _ => .list
  case tuple     => exact fun _ _ => .tuple
  case union     => exact fun _ _ => .union
  case optional  => exact fun _ _ => .optional
  case struct    => exact fun _ _ => .struct

-- Each error is at a substitute, inside of it or around it. So without one there are no errors.
theorem validate_generate_substitute {raw definition : Json} {node : Node} {substitute value : Json}
    (hs : Typespace.ofJson raw = .ok space) (hp : space.parse definition = .ok node)
    (hn : ¬Node.Part (.literal (.number .infinite)) node)
    (hd : ∀ d ∈ space.declarations, ¬Node.Part (.literal (.number .infinite)) d.node)
    (hg : generate space { onRequiredCycle := some substitute } node = .ok value)
    (options : ValidateOptions) :
    (∀ e ∈ validate space options node value, ∃ path,
      Places space.declarations substitute {} node path ∧ value.at? path = some substitute ∧
        (e.path <+: path ∨ path <+: e.path)) ∧
    ((∀ path, ¬Places space.declarations substitute {} node path) →
      validate space options node value = []) := by
  have hw := Definition.wellFormed_of_parse hp
  have hc := Typespace.compiled_of_ofJson hs
  have hf : FailsAtPlaces space options.ignoreExtraneousKeys substitute {} node :=
    failsAtPlaces_of_wellFormed hc hd hw hn
  have hv : ofNode space.declarations (some substitute) {} node = .ok (some value) := by
    simp only [generate] at hg
    split at hg <;> cases hg
    assumption
  constructor
  case left =>
    intro e he
    obtain ⟨path, hp, hm⟩ := hf value hv {} rfl none e he
    obtain ⟨_, h, ha⟩ := hp.exists_at? hc hw hv
    cases h
    exact ⟨path, hp, ha, hm⟩
  case right =>
    intro h
    refine List.eq_nil_iff_forall_not_mem.mpr fun e he => ?_
    obtain ⟨path, hp, _⟩ := hf value hv {} rfl none e he
    exact h path hp

-- The substitute is no `a`, so the union that it stands in accepts nothing.
theorem validate_generate_substitute_union :
    ∃ space value,
      Typespace.ofJson
        (.object [("a", .object [("next", .string "never|b")]), ("b", .object [("back", .string "a")])]) =
        .ok space ∧
      space.parse (.string "a") = .ok (.reference "a") ∧
      ¬Node.Part (.literal (.number .infinite)) (.reference "a") ∧
      (∀ d ∈ space.declarations, ¬Node.Part (.literal (.number .infinite)) d.node) ∧
      generate space { onRequiredCycle := some (.bool true) } (.reference "a") = .ok value ∧
      validate space {} (.reference "a") value ≠ [] ∧
      (∀ e ∈ validate space {} (.reference "a") value, ∃ path,
        Places space.declarations (.bool true) {} (.reference "a") path ∧
          value.at? path = some (.bool true) ∧ (e.path <+: path ∨ path <+: e.path)) ∧
      ((∀ path, ¬Places space.declarations (.bool true) {} (.reference "a") path) →
        validate space {} (.reference "a") value = []) := by
  have ha : Declarations.aliasCycle?
      [⟨"a", .object [("next", .string "never|b")],
          .struct [("next", .union [.primitive .never, .reference "b"])]⟩,
        ⟨"b", .object [("back", .string "a")], .struct [("back", .reference "a")]⟩] = none := by cbv
  refine ⟨⟨_, AliasStep.wellFounded_of_aliasCycle? ha⟩,
    .object [("next", .object [("back", .bool true)])], ?hs, ?hp, ?hn, ?hd, ?hg, ?he,
    validate_generate_substitute ?hs ?hp ?hn ?hd ?hg {}⟩
  case hs => exact Typespace.ofJson_object_eq_ok_iff.mpr ⟨by decide, by cbv, ha⟩
  case hp => cbv
  case hn => simp
  case hd => simp
  case hg => cbv
  case he =>
    intro h
    obtain ⟨_, hr, h⟩ := accepts_reference.mp h
    cases hr
    obtain ⟨_, he, hm, _⟩ := accepts_struct.mp h
    cases he
    obtain ⟨member, hm, h⟩ := accepts_union.mp ((hm _ (.head _)).present _ rfl)
    simp only [List.mem_cons, List.not_mem_nil, or_false] at hm
    rcases hm with rfl | rfl
    case inl => cases accepts_primitive.mp h
    case inr =>
      obtain ⟨_, hr, h⟩ := accepts_reference.mp h
      cases hr
      obtain ⟨_, he, hm, _⟩ := accepts_struct.mp h
      cases he
      obtain ⟨_, hr, h⟩ := accepts_reference.mp ((hm _ (.head _)).present _ rfl)
      cases hr
      obtain ⟨_, he, _⟩ := accepts_struct.mp h
      cases he

end Generate

end JsonShape
