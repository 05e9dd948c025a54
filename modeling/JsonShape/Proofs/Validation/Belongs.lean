import Mathlib
import JsonShape.Proofs.Typespace.Compiled
import JsonShape.Proofs.Validation.Acceptance

namespace JsonShape

open Validation

-- A member of this type may be missing.
inductive AdmitsAbsence (space : Typespace) : Node → Prop
  | optional  : AdmitsAbsence space (.optional node)
  | primitive : (keyword ∈ [Keyword.undefined, .void, .any, .unknown]) →
      AdmitsAbsence space (.primitive keyword)
  | union     : (member ∈ members) → (AdmitsAbsence space member) → AdmitsAbsence space (.union members)
  | reference : (space.resolve? name = some node) → (AdmitsAbsence space node) →
      AdmitsAbsence space (.reference name)

-- The fewest items that fill these slots.
def leastLength : List Node → Nat
  | [] => 0
  | .optional _ :: rest => leastLength rest
  | _ :: rest => leastLength rest + 1

-- The value is one of those that the node stands for. Keys that no member declares may be ignored.
inductive Belongs (space : Typespace) (ignoreExtraneous : Bool) : Json → Node → Prop
  | primitive : keyword.admits value → Belongs space ignoreExtraneous value (.primitive keyword)
  | literal   : l.admits value → Belongs space ignoreExtraneous value (.literal l)
  | reference : (space.resolve? name = some node) → (Belongs space ignoreExtraneous value node) →
      Belongs space ignoreExtraneous value (.reference name)
  | list      : (∀ part ∈ items, Belongs space ignoreExtraneous part item) →
      Belongs space ignoreExtraneous (.array items) (.list item)
  | tuple     : (leastLength slots ≤ items.length) → (items.length ≤ slots.length) →
      (∀ filled ∈ items.zip slots, Belongs space ignoreExtraneous filled.fst filled.snd) →
      Belongs space ignoreExtraneous (.array items) (.tuple slots)
  | union     : (member ∈ members) → (Belongs space ignoreExtraneous value member) →
      Belongs space ignoreExtraneous value (.union members)
  | optional  : (Belongs space ignoreExtraneous value node) →
      Belongs space ignoreExtraneous value (.optional node)
  | struct    :
      (∀ member ∈ members, ∀ value, entries.lookup member.fst = some value →
        Belongs space ignoreExtraneous value member.snd) →
      (∀ member ∈ members, entries.lookup member.fst = none → AdmitsAbsence space member.snd) →
      (ignoreExtraneous ∨ ∀ entry ∈ entries, ∃ member ∈ members, member.fst = entry.fst) →
      Belongs space ignoreExtraneous (.object entries) (.struct members)

variable {space : Typespace} {ignoreExtraneous : Bool} {ctx : Context} {value : Json} {node : Node}

theorem requiredSlots_eq_leastLength {slots : List Node} : requiredSlots slots = leastLength slots := by
  induction slots with
  | nil => rfl
  | cons slot rest hi =>
    rw [requiredSlots] at hi ⊢
    cases slot with
    | optional => exact hi
    | _        => exact congrArg Nat.succ hi

theorem forall_names_iff {entries : List (String × Json)} {members : List (String × Node)} :
    (∀ key ∈ Members.names entries, key ∈ Members.names members) ↔
      ∀ entry ∈ entries, ∃ member ∈ members, member.fst = entry.fst :=
  List.forall_mem_map.trans (forall₂_congr fun _ _ => List.mem_map)

theorem admitsAbsence_of_acceptsAbsence (h : ctx.acceptsAbsence space.declarations node) :
    AdmitsAbsence space node := by
  induction ctx, node using Context.induction space.declarations with
  | primitive => exact .primitive (Context.acceptsAbsence_primitive.mp h)
  | reference ctx name hi =>
    obtain ⟨node, inside, hr, h⟩ := Context.acceptsAbsence_reference.mp h
    exact .reference (Context.reference_eq_node_iff.mp hr).left (hi node inside hr h)
  | union ctx members hi =>
    obtain ⟨member, hm, h⟩ := Context.acceptsAbsence_union.mp h
    exact .union hm (hi member hm false h)
  | optional => exact .optional
  | literal | list | tuple | struct =>
    rw [Context.acceptsAbsence] at h
    cases h

theorem belongs_of_accepts (h : Accepts space ignoreExtraneous ctx value node) :
    Belongs space ignoreExtraneous value node := by
  induction value, node using space.induction generalizing ctx with
  | h value node hv hn =>
    cases node with
    | primitive => exact .primitive (accepts_primitive.mp h)
    | literal   => exact .literal (accepts_literal.mp h)
    | reference =>
      obtain ⟨node, hr, h⟩ := accepts_reference.mp h
      exact .reference hr (hn node (.reference hr) h)
    | list item =>
      obtain ⟨items, rfl, hi⟩ := accepts_list.mp h
      exact .list fun part hp => hv part item (Json.sizeOf_item_lt hp) (hi part hp)
    | tuple slots =>
      obtain ⟨items, rfl, hl, hu, hf⟩ := accepts_tuple.mp h
      refine .tuple (requiredSlots_eq_leastLength ▸ hl) hu fun filled hm => ?_
      exact hv _ _ (Json.sizeOf_item_lt (List.of_mem_zip hm).left) (hf filled hm)
    | union members =>
      obtain ⟨member, hm, h⟩ := accepts_union.mp h
      exact .union hm (hn member (.member hm) h)
    | optional inner => exact .optional (hn inner .optional (accepts_optional.mp h))
    | struct members =>
      obtain ⟨entries, rfl, hm, hk⟩ := accepts_struct.mp h
      refine .struct (fun member h value hl => ?_) (fun member h hl => ?_) (hk.imp_right forall_names_iff.mp)
      · exact hv value _ (Json.sizeOf_entry_lt hl) ((hm member h).present value hl)
      · exact admitsAbsence_of_acceptsAbsence ((hm member h).absent hl)

-- No name has to be followed to see that a type admits absence, if none of them does.
theorem acceptsAbsence_of_admitsAbsence
    (hs : ∀ name ∈ space.names, ¬AdmitsAbsence space (.reference name)) (h : AdmitsAbsence space node) :
    ctx.acceptsAbsence space.declarations node := by
  induction h with
  | optional => rw [Context.acceptsAbsence]
  | primitive hk => exact Context.acceptsAbsence_primitive.mpr hk
  | union hm _ hi => exact Context.acceptsAbsence_union.mpr ⟨_, hm, hi⟩
  | reference hr h => exact absurd (.reference hr h) (hs _ (Declarations.mem_names_of_resolve? hr))

theorem accepts_of_belongs (hs : ∀ name ∈ space.names, ¬AdmitsAbsence space (.reference name))
    (h : Belongs space ignoreExtraneous value node) :
    Accepts space ignoreExtraneous ctx value node := by
  induction h generalizing ctx with
  | primitive h         => exact accepts_primitive.mpr h
  | literal h           => exact accepts_literal.mpr h
  | reference hr _ hi   => exact accepts_reference.mpr ⟨_, hr, hi⟩
  | list _ hi           => exact accepts_list.mpr ⟨_, rfl, fun part hp => hi part hp⟩
  | tuple hl hu _ hi    =>
    exact accepts_tuple.mpr ⟨_, rfl, requiredSlots_eq_leastLength ▸ hl, hu, fun filled hf => hi filled hf⟩
  | union hm _ hi       => exact accepts_union.mpr ⟨_, hm, hi⟩
  | optional _ hi       => exact accepts_optional.mpr hi
  | struct _ ha hk hi =>
    have hk := hk.imp_right forall_names_iff.mpr
    refine accepts_struct.mpr ⟨_, rfl, fun member hm => ⟨fun value hl => ?_, fun hl => ?_⟩, hk⟩
    · exact hi member hm value hl
    · exact acceptsAbsence_of_admitsAbsence hs (ha member hm hl)

theorem validate_sound_complete (space : Typespace) (options : ValidateOptions) (node : Node)
    (value : Json) :
    (validate space options node value = [] →
      Belongs space options.ignoreExtraneousKeys value node) ∧
    ((∀ name ∈ space.names, ¬AdmitsAbsence space (.reference name)) →
      Belongs space options.ignoreExtraneousKeys value node → validate space options node value = []) :=
  ⟨belongs_of_accepts, accepts_of_belongs⟩

-- A tree of one level belongs without its notes, and no name has to be followed twice to accept it.
theorem validate_sound_complete_tree :
    ∃ space,
      Typespace.compile [("tree", .object
        [("children", .string "tree[]"), ("note", .string "any"), ("label?", .string "string")])] = .ok space ∧
      (∀ name ∈ space.names, ¬AdmitsAbsence space (.reference name)) ∧
      Belongs space false (.object [("children", .array [.object [("children", .array [])]])])
        (.reference "tree") ∧
      validate space {} (.reference "tree")
        (.object [("children", .array [.object [("children", .array [])]])]) = [] := by
  have ha : Declarations.aliasCycle?
      [⟨"tree", .object [("children", .string "tree[]"), ("note", .string "any"), ("label?", .string "string")],
        .struct [("children", .list (.reference "tree")), ("note", .primitive .any),
          ("label", .optional (.primitive .string))]⟩] = none := by cbv
  refine ⟨⟨_, AliasStep.wellFounded_of_aliasCycle? ha⟩,
    Typespace.compile_eq_ok_iff.mpr ⟨by cbv, by cbv, ha⟩, ?hn, ?hb,
    (validate_sound_complete _ _ _ _).right ?hn ?hb⟩
  case hn =>
    intro name hm h
    cases List.mem_singleton.mp hm
    cases h with
    | reference hr h => cases hr; cases h
  case hb => exact (validate_sound_complete _ {} _ _).left (by cbv)

end JsonShape
