import Mathlib
import JsonShape.Proofs.Generation.Results
import JsonShape.Proofs.Node.LiteralValue
import JsonShape.Proofs.Typespace.Compiled
import JsonShape.Proofs.Validation.Acceptance

namespace JsonShape

open Validation Synthesis

-- As many items are given as a tuple must have.
theorem length_of_ofSlots {space : Declarations} {substitute : Option Json} {ctx : Context}
    {slots : List Node} {items : List Json} (hr : ¬Definition.requiredFollowsOptional slots)
    (h : ofSlots space substitute ctx slots = .ok items) :
    items.length = requiredSlots slots ∧ items.length ≤ slots.length := by
  have hl := (ofSlots_eq_ok h).left
  constructor
  case left  => rw [requiredSlots, Node.filter_required_slots hr, hl]
  case right => exact hl ▸ (List.takeWhile_sublist _).length_le

-- Where generation gives absence, a member may be missing.
theorem acceptsAbsence_of_ofNode {space : Declarations} {substitute : Option Json} {ctx other : Context}
    {node : Node} (h : ofNode space substitute ctx node = .ok none) (ho : other.seen = ctx.seen) :
    other.acceptsAbsence space node := by
  induction ctx, node using Context.induction space generalizing other with
  | primitive ctx keyword =>
    rw [ofNode] at h
    rw [Context.acceptsAbsence]
    cases keyword <;> cases h <;> rfl
  | literal | list =>
    rw [ofNode] at h
    cases h
  | reference ctx name hi =>
    cases hr : ctx.reference space name with
    | node node inside =>
      rw [ofNode_reference_of_node hr] at h
      obtain ⟨hs, hn, rfl⟩ := Context.reference_eq_node_iff.mp hr
      have hr' := Context.reference_eq_node_iff.mpr ⟨hs, ho.symm ▸ hn, rfl⟩
      refine Context.acceptsAbsence_reference.mpr ⟨node, _, hr', hi node _ hr h ?_⟩
      simp [ho]
    | cycle node cycle =>
      rw [ofNode_reference_of_cycle hr] at h
      obtain ⟨_, hs, rfl⟩ := ofCycle_eq_ok h
      cases hs
    | unresolved =>
      rw [ofNode_reference_of_unresolved hr] at h
      cases h
  | tuple ctx slots =>
    obtain ⟨_, _, hr⟩ := ofNode_tuple_eq_ok h
    cases hr
  | union ctx members hi =>
    rw [ofNode] at h
    obtain ⟨member, hm, hasMore, h⟩ := (ofUnion_eq_ok_none h).resolve_left Bool.false_ne_true
    refine Context.acceptsAbsence_union.mpr ⟨member, hm, hi member hm hasMore h ?_⟩
    rw [Context.seen_alternative, ho]
  | optional => rw [Context.acceptsAbsence]
  | struct ctx members =>
    obtain ⟨_, _, hr⟩ := ofNode_struct_eq_ok h
    cases hr

-- A validation with the same names on the way accepts what generation gives.
structure InStep (space : Typespace) (ignoreExtraneous : Bool) (ctx : Context) (node : Node) :
    Prop where
  value   : ∀ value, ofNode space.declarations none ctx node = .ok (some value) →
    ∀ other : Context, other.seen = ctx.seen → Accepts space ignoreExtraneous other value node
  absence : ofNode space.declarations none ctx node = .ok none →
    ∀ other : Context, other.seen = ctx.seen → other.acceptsAbsence space.declarations node

namespace InStep

variable {space : Typespace} {ignoreExtraneous : Bool} {ctx : Context}

theorem primitive {keyword : Keyword} : InStep space ignoreExtraneous ctx (.primitive keyword) := by
  constructor
  case value =>
    intro value h _ _
    rw [ofNode] at h
    rw [accepts_primitive]
    cases keyword <;> cases h <;> rfl
  case absence => exact fun h _ ho => acceptsAbsence_of_ofNode h ho

theorem literal {l : Literal} (hl : l ≠ .number .infinite) :
    InStep space ignoreExtraneous ctx (.literal l) := by
  constructor
  case value =>
    intro value h _ _
    rw [ofNode] at h
    cases h
    exact accepts_literal.mpr (Literal.admits_toJson hl)
  case absence => exact fun h _ ho => acceptsAbsence_of_ofNode h ho

theorem reference {name : String}
    (hi : ∀ node inside, ctx.reference space.declarations name = .node node inside →
      InStep space ignoreExtraneous inside node) :
    InStep space ignoreExtraneous ctx (.reference name) := by
  constructor
  case value =>
    intro value h other ho
    obtain ⟨node, inside, hr, h⟩ := ofNode_reference_eq_ok h
    obtain ⟨hs, hn, hin⟩ := Context.reference_eq_node_iff.mp hr
    refine accepts_reference.mpr ⟨node, hs, (hi node inside hr).value value h _ ?_⟩
    simp [Context.entering, ho, hn, hin]
  case absence => exact fun h _ ho => acceptsAbsence_of_ofNode h ho

theorem list {item : Node} : InStep space ignoreExtraneous ctx (.list item) := by
  constructor
  case value =>
    intro value h _ _
    rw [ofNode] at h
    cases h
    exact accepts_list.mpr ⟨[], rfl, by simp⟩
  case absence => exact fun h _ ho => acceptsAbsence_of_ofNode h ho

theorem tuple {slots : List Node} (hr : ¬Definition.requiredFollowsOptional slots)
    (hi : ∀ slot ∈ slots, InStep space ignoreExtraneous ctx slot) :
    InStep space ignoreExtraneous ctx (.tuple slots) := by
  constructor
  case value =>
    intro value h other ho
    obtain ⟨items, hs, hv⟩ := ofNode_tuple_eq_ok h
    cases hv
    obtain ⟨hl, hu⟩ := length_of_ofSlots hr hs
    refine accepts_tuple.mpr ⟨items, rfl, Nat.le_of_eq hl.symm, hu, fun filled hm => ?_⟩
    exact (hi _ (List.of_mem_zip hm).right).value _ ((ofSlots_eq_ok hs).right filled hm) other ho
  case absence => exact fun h _ ho => acceptsAbsence_of_ofNode h ho

theorem union {members : List Node}
    (hi : ∀ member ∈ members, ∀ hasMore,
      InStep space ignoreExtraneous (ctx.alternative hasMore) member) :
    InStep space ignoreExtraneous ctx (.union members) := by
  constructor
  case value =>
    intro value h other ho
    rw [ofNode] at h
    obtain ⟨member, hm, hasMore, h⟩ := ofUnion_eq_ok_some h
    refine accepts_union.mpr ⟨member, hm, (hi member hm hasMore).value value h other ?_⟩
    rw [Context.seen_alternative, ho]
  case absence => exact fun h _ ho => acceptsAbsence_of_ofNode h ho

theorem optional {inner : Node} (hi : InStep space ignoreExtraneous ctx inner) :
    InStep space ignoreExtraneous ctx (.optional inner) := by
  constructor
  case value =>
    intro value h other ho
    rw [ofNode] at h
    exact accepts_optional.mpr (hi.value value h other ho)
  case absence => exact fun h _ ho => acceptsAbsence_of_ofNode h ho

-- A member that has no value is absent from the object, and the validation finds it missing.
theorem struct {members : List (String × Node)} (hd : Members.Distinct members)
    (hi : ∀ member ∈ members, ¬member.snd.isOptional → InStep space ignoreExtraneous ctx member.snd) :
    InStep space ignoreExtraneous ctx (.struct members) := by
  constructor
  case value =>
    intro value h other ho
    obtain ⟨entries, hs, hv⟩ := ofNode_struct_eq_ok h
    cases hv
    refine accepts_struct.mpr ⟨entries, rfl, fun member hm => ?_, .inr (names_of_ofMembers hs)⟩
    have hl := lookup_of_ofMembers hd hs member hm
    split at hl
    case isTrue hn =>
      constructor
      case present =>
        intro value he
        cases hl.symm.trans he
      case absent => exact fun _ => Context.acceptsAbsence_of_isOptional hn
    case isFalse hn =>
      constructor
      case present => exact fun value he => (hi member hm hn).value value (he ▸ hl) other ho
      case absent  => exact fun he => acceptsAbsence_of_ofNode (he ▸ hl) ho
  case absence => exact fun h _ ho => acceptsAbsence_of_ofNode h ho

end InStep

section Generate

variable {space : Typespace}

section Induction

-- An infinite number is written as null, which is no number, so there must be none.
variable (hc : space.Compiled)
  (hs : ∀ d ∈ space.declarations, ¬Node.Part (.literal (.number .infinite)) d.node)
  {motive : Context → Node → Prop}
  (primitive : ∀ ctx keyword, motive ctx (.primitive keyword))
  (literal   : ∀ ctx l, l ≠ .number .infinite → motive ctx (.literal l))
  (reference : ∀ ctx name,
    (∀ node inside, ctx.reference space.declarations name = .node node inside → motive inside node) →
    motive ctx (.reference name))
  (list      : ∀ ctx item, motive ctx (.list item))
  (tuple     : ∀ ctx slots, ¬Definition.requiredFollowsOptional slots →
    (∀ slot ∈ slots, motive ctx slot) → motive ctx (.tuple slots))
  (union     : ∀ ctx members,
    (∀ member ∈ members, ∀ hasMore, motive (ctx.alternative hasMore) member) →
    motive ctx (.union members))
  (optional  : ∀ ctx inner, motive ctx inner → motive ctx (.optional inner))
  (struct    : ∀ ctx members, Members.Distinct members →
    (∀ member ∈ members, ¬member.snd.isOptional → motive ctx member.snd) → motive ctx (.struct members))

include hc hs primitive literal reference list tuple union optional struct

-- What generation goes through from a well-formed node is well-formed, too.
theorem generation_induction {ctx : Context} {node : Node} (hw : node.WellFormed space.isDeclared)
    (hn : ¬Node.Part (.literal (.number .infinite)) node) : motive ctx node := by
  induction ctx, node using Context.induction space.declarations with
  | primitive ctx keyword => exact primitive ctx keyword
  | literal ctx l         => exact literal ctx l fun h => hn (h ▸ .self)
  | reference ctx name hi =>
    refine reference ctx name fun node inside hr => ?_
    have hr' := (Context.reference_eq_node_iff.mp hr).left
    obtain ⟨d, hd, _, he⟩ := Declarations.exists_mem_of_resolve? hr'
    exact hi node inside hr (hc.wellFormed_of_resolve? hr') (he ▸ hs d hd)
  | list ctx item => exact list ctx item
  | tuple ctx slots hi =>
    obtain ⟨hr, hw⟩ := hw.of_tuple
    exact tuple ctx slots hr fun slot hm => hi slot hm (hw slot hm) fun hp => hn (.tuple hm hp)
  | union ctx members hi =>
    exact union ctx members fun member hm hasMore =>
      hi member hm hasMore (.expression (hw.of_union member hm)) fun hp => hn (.union hm hp)
  | optional ctx inner hi => exact optional ctx inner (hi hw.of_optional fun hp => hn (.optional hp))
  | struct ctx members hi =>
    obtain ⟨hd, hw⟩ := hw.of_struct
    refine struct ctx members hd fun member hm ho => hi member hm ?_ fun hp => hn (.struct hm hp)
    exact Node.required_of_not_optional ho ▸ hw member hm

end Induction

theorem inStep_of_wellFormed (hc : space.Compiled)
    (hs : ∀ d ∈ space.declarations, ¬Node.Part (.literal (.number .infinite)) d.node)
    {ignoreExtraneous : Bool} {ctx : Context} {node : Node} (hw : node.WellFormed space.isDeclared)
    (hn : ¬Node.Part (.literal (.number .infinite)) node) : InStep space ignoreExtraneous ctx node := by
  refine generation_induction hc hs
    ?primitive ?literal ?reference ?list ?tuple ?union ?optional ?struct hw hn
  case primitive => exact fun _ _ => .primitive
  case literal   => exact fun _ _ => .literal
  case reference => exact fun _ _ => .reference
  case list      => exact fun _ _ => .list
  case tuple     => exact fun _ _ => .tuple
  case union     => exact fun _ _ => .union
  case optional  => exact fun _ _ => .optional
  case struct    => exact fun _ _ => .struct

theorem validate_generate {raw definition : Json} {node : Node} {value : Json}
    (hs : Typespace.ofJson raw = .ok space) (hp : space.parse definition = .ok node)
    (hn : ¬Node.Part (.literal (.number .infinite)) node)
    (hd : ∀ d ∈ space.declarations, ¬Node.Part (.literal (.number .infinite)) d.node)
    (hg : generate space {} node = .ok value) (options : ValidateOptions) :
    validate space options node value = [] := by
  have hw := Definition.wellFormed_of_parse hp
  have hi : InStep space options.ignoreExtraneousKeys {} node :=
    inStep_of_wellFormed (Typespace.compiled_of_ofJson hs) hd hw hn
  simp only [generate] at hg
  split at hg <;> cases hg
  exact hi.value value ‹_› {} rfl

-- A tree gives an object in which a cycle was avoided and a member is absent.
theorem validate_generate_tree :
    ∃ space value,
      Typespace.ofJson
        (.object [("tree", .object [("next", .string "tree|null"), ("gone", .string "void")])]) =
        .ok space ∧
      space.parse (.string "tree") = .ok (.reference "tree") ∧
      ¬Node.Part (.literal (.number .infinite)) (.reference "tree") ∧
      (∀ d ∈ space.declarations, ¬Node.Part (.literal (.number .infinite)) d.node) ∧
      generate space {} (.reference "tree") = .ok value ∧
      validate space {} (.reference "tree") value = [] := by
  have ha : Declarations.aliasCycle?
      [⟨"tree", .object [("next", .string "tree|null"), ("gone", .string "void")],
        .struct [("next", .union [.reference "tree", .primitive .null]), ("gone", .primitive .void)]⟩] =
      none := by cbv
  refine ⟨⟨_, AliasStep.wellFounded_of_aliasCycle? ha⟩, .object [("next", .null)],
    ?hs, ?hp, ?hn, ?hd, ?hg, validate_generate ?hs ?hp ?hn ?hd ?hg {}⟩
  case hs => exact Typespace.ofJson_object_eq_ok_iff.mpr ⟨by cbv, by cbv, ha⟩
  case hp => cbv
  case hn => simp
  case hd => simp
  case hg => cbv

end Generate

end JsonShape
