import Mathlib
import JsonShape.Proofs.Json.Entries
import JsonShape.Proofs.Typespace.Compiled
import JsonShape.Proofs.Validation.Acceptance
import JsonShape.Proofs.Validation.Parts

namespace JsonShape

open Validation

-- The second value is the first one without some keys of its objects, at any depth.
inductive Json.PrunesTo : Json → Json → Prop
  | same   : PrunesTo value value
  | array  : List.Forall₂ PrunesTo items others → PrunesTo (.array items) (.array others)
  | object {entries kept pruned : List (String × Json)} : kept.Sublist entries →
      Members.Related PrunesTo kept pruned → PrunesTo (.object entries) (.object pruned)

namespace Validation

variable {space : Typespace} {ctx : Context} {value : Json} {node : Node}

theorem accepts_of_strict (h : Accepts space false ctx value node) : Accepts space true ctx value node := by
  induction value, node using space.induction generalizing ctx
  case h value node hv hn =>
  cases node with
  | primitive => exact accepts_primitive.mpr (accepts_primitive.mp h)
  | literal   => exact accepts_literal.mpr (accepts_literal.mp h)
  | reference =>
    obtain ⟨node, hr, h⟩ := accepts_reference.mp h
    exact accepts_reference.mpr ⟨node, hr, hn node (.reference hr) h⟩
  | list item =>
    obtain ⟨items, rfl, hi⟩ := accepts_list.mp h
    exact accepts_list.mpr ⟨items, rfl, fun part hp => hv part item (Json.sizeOf_item_lt hp) (hi part hp)⟩
  | tuple slots =>
    obtain ⟨items, rfl, hl, hu, hf⟩ := accepts_tuple.mp h
    refine accepts_tuple.mpr ⟨items, rfl, hl, hu, fun filled hm => ?_⟩
    exact hv _ _ (Json.sizeOf_item_lt (List.of_mem_zip hm).left) (hf filled hm)
  | union members =>
    obtain ⟨member, hm, h⟩ := accepts_union.mp h
    exact accepts_union.mpr ⟨member, hm, hn member (.member hm) h⟩
  | optional inner => exact accepts_optional.mpr (hn inner .optional (accepts_optional.mp h))
  | struct members =>
    obtain ⟨entries, rfl, hm, _⟩ := accepts_struct.mp h
    refine accepts_struct.mpr ⟨entries, rfl, fun member h => ⟨fun part hl => ?_, (hm member h).absent⟩, .inl rfl⟩
    exact hv part _ (Json.sizeOf_entry_lt hl) ((hm member h).present part hl)

-- Items that can be pruned to suit their places are pruned all at once.
theorem exists_pruned_items {items : List Json} {suits : Nat → Json → Prop}
    (h : ∀ i part, items[i]? = some part → ∃ pruned, part.PrunesTo pruned ∧ suits i pruned) :
    ∃ others, List.Forall₂ Json.PrunesTo items others ∧ ∀ i part, others[i]? = some part → suits i part := by
  induction items generalizing suits with
  | nil => exact ⟨[], .nil, by simp⟩
  | cons item rest hi =>
    obtain ⟨first, hp, hs⟩ := h 0 item rfl
    obtain ⟨others, hf, ho⟩ := @hi (fun i => suits (i + 1)) fun i part hr => h (i + 1) part hr
    refine ⟨first :: others, .cons hp hf, fun i part hr => ?_⟩
    cases i with
    | zero =>
      cases hr
      exact hs
    | succ i => exact ho i part hr

-- An object is cut down to some keys, and what is found under each of these is pruned to suit its key.
theorem exists_pruned_entries {entries : List (String × Json)} {suits : String → Json → Prop}
    (declared : String → Bool)
    (h : ∀ key part, entries.lookup key = some part → ∃ pruned, part.PrunesTo pruned ∧ suits key pruned) :
    ∃ pruned, (Json.object entries).PrunesTo (.object pruned) ∧ (∀ key ∈ Members.names pruned, declared key) ∧
      ∀ key, declared key → (∀ part, pruned.lookup key = some part → suits key part) ∧
        (pruned.lookup key = none → entries.lookup key = none) := by
  have hp : ∀ entry : String × Json, ∃ pruned, entry.snd.PrunesTo pruned ∧
      (entries.lookup entry.fst = some entry.snd → suits entry.fst pruned) := by
    rintro ⟨key, part⟩
    by_cases hl : entries.lookup key = some part
    case pos =>
      obtain ⟨pruned, hp, hs⟩ := h key part hl
      exact ⟨pruned, hp, fun _ => hs⟩
    case neg => exact ⟨part, .same, fun he => absurd he hl⟩
  choose f hf hs using hp
  refine ⟨(entries.filter fun entry => declared entry.fst).map fun entry => (entry.fst, f entry),
    .object List.filter_sublist (.of_map fun entry _ => hf entry), fun key hk => ?names, fun key hk => ?lookup⟩
  case names =>
    simp only [Members.names, List.map_map, List.mem_map] at hk
    obtain ⟨entry, he, rfl⟩ := hk
    exact (List.mem_filter.mp he).right
  case lookup =>
    rw [Members.lookup_map, Members.lookup_filter hk]
    refine ⟨fun part hp => ?_, Option.map_eq_none_iff.mp⟩
    obtain ⟨value, hl, rfl⟩ := Option.map_eq_some_iff.mp hp
    exact hs (key, value) hl

-- A strict check accepts the value once some keys are gone.
def Prunable (space : Typespace) (ctx : Context) (value : Json) (node : Node) : Prop :=
  ∃ pruned, value.PrunesTo pruned ∧ Accepts space false ctx pruned node

namespace Prunable

theorem list {items : List Json} {item : Node} (h : ∀ part ∈ items, Prunable space ctx part item) :
    Prunable space ctx (.array items) (.list item) := by
  obtain ⟨others, hf, ho⟩ : ∃ others, List.Forall₂ Json.PrunesTo items others ∧
      ∀ (i : Nat) part, others[i]? = some part → Accepts space false ctx part item :=
    exists_pruned_items fun i part hp => h part (List.mem_of_getElem? hp)
  refine ⟨.array others, .array hf, accepts_list.mpr ⟨others, rfl, fun part hm => ?_⟩⟩
  obtain ⟨i, hp⟩ := List.mem_iff_getElem?.mp hm
  exact ho i part hp

theorem tuple {items : List Json} {slots : List Node} (hl : requiredSlots slots ≤ items.length)
    (hu : items.length ≤ slots.length) (h : ∀ filled ∈ items.zip slots, Prunable space ctx filled.fst filled.snd) :
    Prunable space ctx (.array items) (.tuple slots) := by
  obtain ⟨others, hf, ho⟩ : ∃ others, List.Forall₂ Json.PrunesTo items others ∧
      ∀ (i : Nat) part, others[i]? = some part → ∀ slot, slots[i]? = some slot →
        Accepts space false ctx part slot := by
    refine exists_pruned_items fun i part hp => ?_
    obtain ⟨hi, -⟩ := List.getElem?_eq_some_iff.mp hp
    have hs : slots[i]? = some slots[i] := List.getElem?_eq_getElem (by omega)
    have hm := List.mem_of_getElem? (List.getElem?_zip_eq_some (z := (part, slots[i])) |>.mpr ⟨hp, hs⟩)
    obtain ⟨pruned, hr, ha⟩ := h _ hm
    refine ⟨pruned, hr, fun slot ho => ?_⟩
    cases hs.symm.trans ho
    exact ha
  refine ⟨.array others, .array hf, accepts_tuple.mpr ⟨others, rfl, ?_, ?_, fun filled hm => ?_⟩⟩
  · exact hf.length_eq ▸ hl
  · exact hf.length_eq ▸ hu
  · obtain ⟨i, hi⟩ := List.mem_iff_getElem?.mp hm
    obtain ⟨hp, hs⟩ := List.getElem?_zip_eq_some.mp hi
    exact ho i _ hp _ hs

theorem struct {entries : List (String × Json)} {members : List (String × Node)} (hd : Members.Distinct members)
    (hp : ∀ member ∈ members, ∀ part, entries.lookup member.fst = some part → Prunable space ctx part member.snd)
    (hn : ∀ member ∈ members, entries.lookup member.fst = none →
      ctx.acceptsAbsence space.declarations member.snd) :
    Prunable space ctx (.object entries) (.struct members) := by
  -- Members have names of their own, so no value has to suit two of them.
  have hs : ∀ key part, entries.lookup key = some part → ∃ pruned, part.PrunesTo pruned ∧
      ∀ member ∈ members, member.fst = key → Accepts space false ctx pruned member.snd := by
    intro key part hl
    by_cases hk : ∃ member ∈ members, member.fst = key
    case pos =>
      obtain ⟨member, hm, rfl⟩ := hk
      obtain ⟨pruned, hr, ha⟩ := hp member hm part hl
      refine ⟨pruned, hr, fun other ho he => ?_⟩
      cases List.inj_on_of_nodup_map hd ho hm he
      exact ha
    case neg => exact ⟨part, .same, fun member hm he => absurd ⟨member, hm, he⟩ hk⟩
  obtain ⟨pruned, hr, hk, hl⟩ := exists_pruned_entries (Members.names members).contains hs
  refine ⟨.object pruned, hr, accepts_struct.mpr ⟨pruned, rfl, fun member hm => ?member, .inr ?keys⟩⟩
  case member =>
    obtain ⟨hs, ho⟩ := hl member.fst (List.contains_iff_mem.mpr (List.mem_map_of_mem hm))
    exact ⟨fun part hp => hs part hp member hm rfl, fun hp => hn member hm (ho hp)⟩
  case keys => simpa using hk

end Prunable

-- The pruned value is found along with the members that accept it: each union settles on one of its members first.
theorem prunable_of_accepts (hc : space.Compiled) (hw : node.MembersDistinct)
    (h : Accepts space true ctx value node) : Prunable space ctx value node := by
  induction value, node using space.induction generalizing ctx
  case h value node hv hn =>
  cases node with
  | primitive => exact ⟨value, .same, accepts_primitive.mpr (accepts_primitive.mp h)⟩
  | literal   => exact ⟨value, .same, accepts_literal.mpr (accepts_literal.mp h)⟩
  | reference name =>
    obtain ⟨node, hr, h⟩ := accepts_reference.mp h
    obtain ⟨pruned, hp, ha⟩ := hn node (.reference hr) (hc.membersDistinct hr) h
    exact ⟨pruned, hp, accepts_reference.mpr ⟨node, hr, ha⟩⟩
  | list item =>
    obtain ⟨items, rfl, hi⟩ := accepts_list.mp h
    exact .list fun part hm => hv part item (Json.sizeOf_item_lt hm) (hw.within (.list .self)) (hi part hm)
  | tuple slots =>
    obtain ⟨items, rfl, hl, hu, hf⟩ := accepts_tuple.mp h
    refine .tuple hl hu fun filled hm => ?_
    obtain ⟨hi, hs⟩ := List.of_mem_zip hm
    exact hv _ _ (Json.sizeOf_item_lt hi) (hw.within (.tuple hs .self)) (hf filled hm)
  | union members =>
    obtain ⟨member, hm, h⟩ := accepts_union.mp h
    obtain ⟨pruned, hp, ha⟩ := hn member (.member hm) (hw.within (.union hm .self)) h
    exact ⟨pruned, hp, accepts_union.mpr ⟨member, hm, ha⟩⟩
  | optional inner =>
    obtain ⟨pruned, hp, ha⟩ := hn inner .optional (hw.within (.optional .self)) (accepts_optional.mp h)
    exact ⟨pruned, hp, accepts_optional.mpr ha⟩
  | struct members =>
    obtain ⟨entries, rfl, hm, _⟩ := accepts_struct.mp h
    refine .struct (hw members .self) (fun member h part hl => ?_) fun member h => (hm member h).absent
    exact hv part _ (Json.sizeOf_entry_lt hl) (hw.within (.struct h .self)) ((hm member h).present part hl)

end Validation

section Validate

variable {raw : Members Json} {space : Typespace} {node : Node}

theorem validate_pruned (hs : Typespace.compile raw = .ok space) (hn : node.MembersDistinct) (value : Json) :
    (validate space {} node value = [] → validate space { ignoreExtraneousKeys := true } node value = []) ∧
    (validate space { ignoreExtraneousKeys := true } node value = [] →
      ∃ pruned, value.PrunesTo pruned ∧ validate space {} node pruned = []) :=
  ⟨accepts_of_strict, prunable_of_accepts (Typespace.compiled_of_compile hs) hn⟩

-- The key goes from the tree, but stays in the object, of which nothing more is known.
theorem validate_pruned_tree :
    ∃ space value,
      Typespace.compile [("tree", .object [("value", .string "object"), ("next?", .string "tree")])] =
        .ok space ∧
      (Node.reference "tree").MembersDistinct ∧
      (validate space {} (.reference "tree") value).map ValidationError.path = [[.key "next"]] ∧
      validate space { ignoreExtraneousKeys := true } (.reference "tree") value = [] ∧
      (validate space {} (.reference "tree") value = [] →
        validate space { ignoreExtraneousKeys := true } (.reference "tree") value = []) ∧
      (validate space { ignoreExtraneousKeys := true } (.reference "tree") value = [] →
        ∃ pruned, value.PrunesTo pruned ∧ validate space {} (.reference "tree") pruned = []) := by
  have ha : Declarations.aliasCycle?
      [⟨"tree", .object [("value", .string "object"), ("next?", .string "tree")],
        .struct [("value", .primitive .object), ("next", .optional (.reference "tree"))]⟩] = none := by cbv
  refine ⟨⟨_, AliasStep.wellFounded_of_aliasCycle? ha⟩,
    .object [("value", .object [("color", .null)]),
      ("next", .object [("color", .null), ("value", .object [])])],
    ?hs, ?hn, ?hp, by cbv, validate_pruned ?hs ?hn _⟩
  case hs => exact Typespace.compile_eq_ok_iff.mpr ⟨by cbv, by cbv, ha⟩
  case hn =>
    intro members hm
    simp at hm
  case hp =>
    have hr {ctx : Context} {label : Option String} {value : Json} :=
      @check_reference_of_resolve? ⟨_, AliasStep.wellFounded_of_aliasCycle? ha⟩ false ctx label value "tree" _ rfl
    simp [validate, check, hr, checkMembers_eq_flatMap, checkMember, checkKeys, extraneousKeys,
      Members.names, Members.lookup_cons, Context.acceptsAbsence, Node.required, Keyword.admits, Violation.error]

end Validate

end JsonShape
