import Mathlib
import JsonShape.Proofs.Typespace.Reachability
import JsonShape.Proofs.Validation.Belongs

namespace JsonShape

open Relation Validation

namespace Node

-- A struct that the node reaches has a member that must be there and stands for the name.
def HoldsAlias (space : Declarations) (name : String) (node : Node) : Prop :=
  ∃ members, Reaches space (.struct members) node ∧ ∃ member ∈ members,
    ¬member.snd.isOptional ∧ ReflTransGen (AliasStep space) (.reference name) member.snd

variable {space : Declarations} {inner node other : Node} {name : String}

theorem HoldsAlias.within (h : other.HoldsAlias space name) (hp : Part other node) :
    node.HoldsAlias space name := by
  obtain ⟨members, hr, hm⟩ := h
  exact ⟨members, hr.within hp, hm⟩

theorem HoldsAlias.of_resolve? {first : String} (hr : space.resolve? first = some node)
    (h : node.HoldsAlias space name) : (Node.reference first).HoldsAlias space name := by
  obtain ⟨members, hs, hm⟩ := h
  exact ⟨members, .name .self hr hs, hm⟩

end Node

theorem Context.mem_seen_entering {ctx : Context} {name other : String} :
    other ∈ (ctx.entering name).seen ↔ other ∈ ctx.seen ∨ other = name := by
  rw [entering]
  split
  case isTrue hm => exact ⟨.inl, fun h => h.elim id (· ▸ hm)⟩
  case isFalse   => simp

section Way

variable {space : Typespace} {ignoreExtraneous : Bool} {value : Json} {node : Node}
variable {ctx ctx' : Context} (extra : String → Prop)

-- A check finds no less with other names on the way, as long as each name that only these have leads
-- to no absence, or is not met.
theorem acceptsAbsence_of_seen (hs : ∀ name ∈ ctx'.seen, name ∈ ctx.seen ∨ extra name)
    (he : ∀ name, extra name → AdmitsAbsence space (.reference name) →
      ¬ReflTransGen (AliasStep space.declarations) (.reference name) node)
    (h : ctx.acceptsAbsence space.declarations node) : ctx'.acceptsAbsence space.declarations node := by
  induction ctx, node using Context.induction space.declarations generalizing ctx' with
  | reference ctx other hi =>
    have ha := admitsAbsence_of_acceptsAbsence h
    obtain ⟨node, inside, hr, h⟩ := Context.acceptsAbsence_reference.mp h
    obtain ⟨ho, hn, rfl⟩ := Context.reference_eq_node_iff.mp hr
    have hn' : other ∉ ctx'.seen := by
      intro hm
      rcases hs other hm with hm | hm
      · exact hn hm
      · exact he other hm ha .refl
    have hr' := Context.reference_eq_node_iff.mpr ⟨ho, hn', rfl⟩
    refine Context.acceptsAbsence_reference.mpr ⟨node, _, hr', hi node _ hr ?_ ?_ h⟩
    · intro name hm
      simp only [List.mem_append, List.mem_singleton] at hm ⊢
      exact hm.elim (fun hm => (hs name hm).imp_left .inl) fun hm => .inl (.inr hm)
    · exact fun name hx hp hl => he name hx hp (hl.tail (.reference ho))
  | union ctx members hi =>
    obtain ⟨member, hm, h⟩ := Context.acceptsAbsence_union.mp h
    refine Context.acceptsAbsence_union.mpr ⟨member, hm, hi member hm false hs ?_ h⟩
    exact fun name hx hp hl => he name hx hp (hl.tail (.member hm))
  | optional => rw [Context.acceptsAbsence]
  | primitive | literal | list | tuple | struct =>
    rw [Context.acceptsAbsence] at h ⊢
    exact h

theorem accepts_of_seen (hs : ∀ name ∈ ctx'.seen, name ∈ ctx.seen ∨ extra name)
    (he : ∀ name, extra name → AdmitsAbsence space (.reference name) →
      ¬node.HoldsAlias space.declarations name)
    (h : Accepts space ignoreExtraneous ctx value node) :
    Accepts space ignoreExtraneous ctx' value node := by
  induction value, node using space.induction generalizing ctx ctx' with
  | h value node hv hn =>
    -- What a part holds, the whole holds.
    have hp {part : Node} (hp : Node.Part part node) : ∀ name, extra name →
        AdmitsAbsence space (.reference name) → ¬part.HoldsAlias space.declarations name :=
      fun name hx ha hh => he name hx ha (hh.within hp)
    cases node with
    | primitive => exact accepts_primitive.mpr (accepts_primitive.mp h)
    | literal   => exact accepts_literal.mpr (accepts_literal.mp h)
    | reference other =>
      obtain ⟨node, hr, h⟩ := accepts_reference.mp h
      refine accepts_reference.mpr ⟨node, hr, hn node (.reference hr) ?_ ?_ h⟩
      · intro name hm
        rw [Context.mem_seen_entering] at hm ⊢
        exact hm.elim (fun hm => (hs name hm).imp_left .inl) fun hm => .inl (.inr hm)
      · exact fun name hx ha hh => he name hx ha (.of_resolve? hr hh)
    | list item =>
      obtain ⟨items, rfl, hi⟩ := accepts_list.mp h
      refine accepts_list.mpr ⟨items, rfl, fun part hm => ?_⟩
      exact hv part item (Json.sizeOf_item_lt hm) hs (hp (.list .self)) (hi part hm)
    | tuple slots =>
      obtain ⟨items, rfl, hl, hu, hf⟩ := accepts_tuple.mp h
      refine accepts_tuple.mpr ⟨items, rfl, hl, hu, fun filled hm => ?_⟩
      obtain ⟨hi, ho⟩ := List.of_mem_zip hm
      exact hv _ _ (Json.sizeOf_item_lt hi) hs (hp (.tuple ho .self)) (hf filled hm)
    | union members =>
      obtain ⟨member, hm, h⟩ := accepts_union.mp h
      exact accepts_union.mpr ⟨member, hm, hn member (.member hm) hs (hp (.union hm .self)) h⟩
    | optional inner =>
      exact accepts_optional.mpr (hn inner .optional hs (hp (.optional .self)) (accepts_optional.mp h))
    | struct members =>
      obtain ⟨entries, rfl, hm, hk⟩ := accepts_struct.mp h
      refine accepts_struct.mpr ⟨entries, rfl, fun member h => ⟨fun value hl => ?present, fun hl => ?absent⟩, hk⟩
      case present =>
        exact hv value _ (Json.sizeOf_entry_lt hl) hs (hp (.struct h .self)) ((hm member h).present value hl)
      case absent =>
        by_cases ho : member.snd.isOptional
        case pos => exact Context.acceptsAbsence_of_isOptional ho
        case neg =>
          refine acceptsAbsence_of_seen extra hs (fun name hx ha hl => ?_) ((hm member h).absent hl)
          exact he name hx ha ⟨members, .part .self, member, h, ho, hl⟩

end Way

section Name

variable {space : Typespace} {name : String} {node : Node}

theorem validate_reference (hr : space.resolve? name = some node) (options : ValidateOptions)
    (value : Json) :
    (validate space options (.reference name) value = [] → validate space options node value = []) ∧
    ((AdmitsAbsence space (.reference name) → ¬node.HoldsAlias space.declarations name) →
      validate space options node value = [] → validate space options (.reference name) value = []) := by
  constructor
  case left =>
    intro h
    obtain ⟨resolved, hs, h⟩ := accepts_reference.mp h
    cases hr.symm.trans hs
    exact accepts_of_seen (fun _ => False) (by simp) (by simp) h
  case right =>
    intro hn h
    refine accepts_reference.mpr ⟨node, hr, accepts_of_seen (· = name) ?_ ?_ h⟩
    · intro other hm
      exact Context.mem_seen_entering.mp hm
    · rintro _ rfl
      exact hn

-- The name admits absence and comes back inside of itself, but only as the items of a list.
theorem validate_reference_nested :
    ∃ space node, Typespace.ofJson
        (.object [("a", .string "b|undefined"), ("b", .object [("items", .string "a[]")])]) = .ok space ∧
      space.resolve? "a" = some node ∧
      (AdmitsAbsence space (.reference "a") → ¬node.HoldsAlias space.declarations "a") ∧
      validate space {} node (.object [("items", .array [])]) = [] ∧
      validate space {} (.reference "a") (.object [("items", .array [])]) = [] := by
  have ha : Declarations.aliasCycle?
      [⟨"a", .string "b|undefined", .union [.reference "b", .primitive .undefined]⟩,
        ⟨"b", .object [("items", .string "a[]")], .struct [("items", .list (.reference "a"))]⟩] =
      none := by cbv
  refine ⟨⟨_, AliasStep.wellFounded_of_aliasCycle? ha⟩, _,
    Typespace.ofJson_object_eq_ok_iff.mpr ⟨by decide, by cbv, ha⟩, rfl, ?hn, ?hv,
    (validate_reference rfl _ _).right ?hn ?hv⟩
  case hn =>
    rintro - ⟨members, hr, member, hm, -, hl⟩
    have hp := hr.exists_part
    simp only [Node.part_union_iff, Node.part_struct_iff, Node.part_list_iff, Node.part_reference_iff,
      Node.part_primitive_iff, List.mem_cons, List.not_mem_nil, or_false, exists_eq_or_imp,
      exists_eq_left, reduceCtorEq, or_self, false_or, Node.struct.injEq] at hp
    subst hp
    cases List.mem_singleton.mp hm
    obtain he | ⟨_, hs, _⟩ := AliasStep.steps_iff.mp hl
    · cases he
    · cases hs
  case hv => cbv

-- The empty object is a `b` where that name is met first, so the node of `a` accepts it. Behind the
-- name `a` it lacks a member: that name is on the way, and no longer followed to the absence in it.
theorem validate_reference_ne_node :
    ∃ space node, Typespace.ofJson
        (.object [("a", .string "b|undefined"), ("b", .object [("k", .string "a")])]) = .ok space ∧
      space.resolve? "a" = some node ∧ validate space {} node (.object []) = [] ∧
      validate space {} (.reference "a") (.object []) ≠ [] := by
  have ha : Declarations.aliasCycle?
      [⟨"a", .string "b|undefined", .union [.reference "b", .primitive .undefined]⟩,
        ⟨"b", .object [("k", .string "a")], .struct [("k", .reference "a")]⟩] = none := by cbv
  refine ⟨⟨_, AliasStep.wellFounded_of_aliasCycle? ha⟩, _,
    Typespace.ofJson_object_eq_ok_iff.mpr ⟨by decide, by cbv, ha⟩, rfl, ?hv, ?hr⟩
  case hv => cbv
  case hr =>
    intro h
    obtain ⟨_, hr, h⟩ := accepts_reference.mp h
    cases hr
    obtain ⟨member, hm, h⟩ := accepts_union.mp h
    simp only [List.mem_cons, List.not_mem_nil, or_false] at hm
    rcases hm with rfl | rfl
    case inr =>
      have hk := accepts_primitive.mp h
      cases hk
    case inl =>
      obtain ⟨_, hr, h⟩ := accepts_reference.mp h
      cases hr
      obtain ⟨entries, he, hm, _⟩ := accepts_struct.mp h
      cases he
      have hk := (hm _ (.head _)).absent rfl
      obtain ⟨_, _, hr, _⟩ := Context.acceptsAbsence_reference.mp hk
      exact (Context.reference_eq_node_iff.mp hr).right.left (by decide)

end Name

end JsonShape
