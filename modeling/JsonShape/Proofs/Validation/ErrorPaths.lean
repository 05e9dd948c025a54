import Mathlib
import JsonShape.Proofs.Typespace.Compiled
import JsonShape.Proofs.Validation.Faults
import JsonShape.Proofs.Validation.Parts

namespace JsonShape

open Validation

namespace Json

-- The path leads to a part of the value, or to a key that an object in the value lacks.
def Locates (value : Json) (path : Path) : Prop :=
  (∃ part, value.at? path = some part) ∨
    ∃ front key entries, path = front ++ [.key key] ∧ value.at? front = some (.object entries) ∧
      key ∉ Members.names entries

variable {value part : Json}

theorem locates_root : value.Locates [] :=
  .inl ⟨value, at?_nil⟩

theorem locates_missing {entries : List (String × Json)} {key : String} (h : entries.lookup key = none) :
    (object entries).Locates [.key key] :=
  .inr ⟨[], key, entries, rfl, at?_nil, Members.lookup_eq_none_iff.mp h⟩

theorem Locates.below {segment : Segment} {rest : Path} (h : part.Locates rest)
    (hs : ∀ path, value.at? (segment :: path) = part.at? path) : value.Locates (segment :: rest) := by
  rcases h with ⟨inner, hi⟩ | ⟨front, key, entries, rfl, he, hn⟩
  case inl => exact .inl ⟨inner, (hs rest).trans hi⟩
  case inr => exact .inr ⟨segment :: front, key, entries, rfl, (hs front).trans he, hn⟩

end Json

namespace Validation

-- The errors have different paths, and each of these leads to a place of the given kind.
structure Scattered (place : Path → Prop) (errors : List ValidationError) : Prop where
  nodup : (errors.map ValidationError.path).Nodup
  place : ∀ e ∈ errors, place e.path

namespace Scattered

variable {place : Path → Prop} {errors others : List ValidationError}

theorem nil : Scattered place [] where
  nodup := .nil
  place := by simp

theorem mono {other : Path → Prop} (h : Scattered place errors) (hp : ∀ path, place path → other path) :
    Scattered other errors where
  nodup := h.nodup
  place := fun e he => hp e.path (h.place e he)

theorem root (v : Violation) (h : place []) : Scattered place [v.error] where
  nodup := List.nodup_singleton _
  place := by simpa [Violation.error] using h

theorem append (h : Scattered place errors) (ho : Scattered place others)
    (hd : ∀ e ∈ errors, ∀ other ∈ others, e.path ≠ other.path) : Scattered place (errors ++ others) where
  nodup := by
    rw [List.map_append]
    refine List.nodup_append'.mpr ⟨h.nodup, ho.nodup, fun path hp hq => ?_⟩
    obtain ⟨e, he, rfl⟩ := List.mem_map.mp hp
    obtain ⟨other, hm, hs⟩ := List.mem_map.mp hq
    exact hd e he other hm hs.symm
  place := List.forall_mem_append.mpr ⟨h.place, ho.place⟩

-- Errors of parts at different places are at different places.
theorem of_parts {α : Type} {parts : List α} {segment : α → Segment} {found : α → List ValidationError}
    (hs : (parts.map segment).Nodup)
    (h : ∀ part ∈ parts, Scattered (fun rest => place (segment part :: rest)) (found part)) :
    Scattered place (parts.flatMap fun part => (found part).map (·.under (segment part))) where
  nodup := by
    simp only [List.map_flatMap, ValidationError.map_path_under]
    refine List.nodup_flatMap.mpr ⟨fun part hm => ?inside, (List.pairwise_map.mp hs).imp ?between⟩
    case inside => exact (h part hm).nodup.map List.cons_injective
    case between =>
      intro part other hn path hp hq
      obtain ⟨_, _, rfl⟩ := List.mem_map.mp hp
      obtain ⟨_, _, he⟩ := List.mem_map.mp hq
      exact hn (List.cons.inj he).left.symm
  place := by
    simp only [List.forall_mem_flatMap, List.forall_mem_map]
    exact fun part hm e he => (h part hm).place e he

end Scattered

theorem nodup_indices {α : Type} {items : List α} :
    (items.zipIdx.map fun place => Segment.index place.snd).Nodup := by
  have h : (items.zipIdx.map Prod.snd).Nodup := by
    rw [List.zipIdx_map_snd]
    exact List.nodup_range'
  refine (List.pairwise_map.mp h).map _ fun place other hn he => ?_
  exact hn (Segment.index.inj he)

theorem nodup_keys {members : List (String × Node)} (h : Members.Distinct members) :
    (members.map fun member => Segment.key member.fst).Nodup := by
  refine (List.pairwise_map.mp h).map _ fun member other hn he => ?_
  exact hn (Segment.key.inj he)

namespace IsWhole

variable {errors : List ValidationError}

theorem scattered {place : Path → Prop} (h : IsWhole errors) (hp : place []) : Scattered place errors := by
  cases h with
  | nothing => exact .nil
  | error v => exact .root v hp

theorem path_eq_nil {e : ValidationError} (h : IsWhole errors) (hm : e ∈ errors) : e.path = [] := by
  cases h with
  | nothing => cases hm
  | error v =>
    cases List.mem_singleton.mp hm
    rfl

end IsWhole

-- The key of a missing member leads to no part of the object, but the object is known to lack it.
theorem Findings.scattered {space : Typespace} (hc : space.Compiled) {value : Json} {node : Node}
    {errors : List ValidationError} (h : Findings space value node errors) (hd : node.MembersDistinct) :
    Scattered value.Locates errors := by
  induction h with
  | whole h           => exact h.scattered Json.locates_root
  | reference hr _ hi => exact hi (hc.membersDistinct hr)
  | optional _ hi     => exact hi (hd.within (.optional .self))
  | items _ hi =>
    refine .of_parts nodup_indices fun place hm => ?_
    have hp := List.mem_zipIdx_iff_getElem?.mp hm
    exact (hi place hm (hd.within (.list .self))).mono fun rest hr => hr.below fun _ => Json.at?_index hp
  | slots _ hi =>
    refine .of_parts nodup_indices fun place hm => ?_
    obtain ⟨hp, ho⟩ := List.getElem?_zip_eq_some.mp (List.mem_zipIdx_iff_getElem?.mp hm)
    have hs := hd.within (.tuple (List.mem_of_getElem? ho) (Node.part_of_part_required .self))
    exact (hi place hm hs).mono fun rest hr => hr.below fun _ => Json.at?_index hp
  | @members entries members found rest _ hn hw hi =>
    refine .append (.of_parts (nodup_keys (hd members .self)) fun member hm => ?part)
      (hw.scattered Json.locates_root) ?apart
    case part =>
      cases hl : entries.lookup member.fst with
      | some part =>
        have hs := hd.within (.struct hm (Node.part_of_part_required .self))
        exact (hi member hm part hl hs).mono fun rest hr => hr.below fun _ => Json.at?_key hl
      | none => exact (hn member hm hl).scattered (Json.locates_missing hl)
    case apart =>
      intro e he other ho
      obtain ⟨member, _, he⟩ := List.mem_flatMap.mp he
      obtain ⟨inner, _, rfl⟩ := List.mem_map.mp he
      rw [hw.path_eq_nil ho]
      exact List.cons_ne_nil _ _

end Validation

section Validate

variable {raw : Members Json} {space : Typespace} {node : Node}

theorem validate_distinct_places (hs : Typespace.compile raw = .ok space) (hn : node.MembersDistinct)
    (options : ValidateOptions) (value : Json) :
    ((validate space options node value).map ValidationError.path).Nodup ∧
      ∀ e ∈ validate space options node value, value.Locates e.path := by
  have h : Scattered value.Locates (validate space options node value) :=
    check_findings.scattered (Typespace.compiled_of_compile hs) hn
  exact ⟨h.nodup, h.place⟩

-- A list of trees, in which a tree lacks a key and has one too many, and a tree inside of it is no tree.
theorem validate_distinct_places_trees :
    ∃ space value,
      Typespace.compile [("tree", .object [("label", .string "string"), ("children", .string "tree[]")])] =
        .ok space ∧
      (Node.list (.reference "tree")).MembersDistinct ∧
      (validate space {} (.list (.reference "tree")) value).map ValidationError.path =
        [[.index 0, .key "label"], [.index 0, .key "children", .index 0], [.index 0]] ∧
      ((validate space {} (.list (.reference "tree")) value).map ValidationError.path).Nodup ∧
      ∀ e ∈ validate space {} (.list (.reference "tree")) value, value.Locates e.path := by
  have ha : Declarations.aliasCycle?
      [⟨"tree", .object [("label", .string "string"), ("children", .string "tree[]")],
        .struct [("label", .primitive .string), ("children", .list (.reference "tree"))]⟩] = none := by cbv
  refine ⟨⟨_, AliasStep.wellFounded_of_aliasCycle? ha⟩,
    .array [.object [("children", .array [.null]), ("size", .null)]], ?hs, ?hn, ?hp,
    validate_distinct_places ?hs ?hn {} _⟩
  case hs => exact Typespace.compile_eq_ok_iff.mpr ⟨by cbv, by cbv, ha⟩
  case hn =>
    intro members hm
    simp at hm
  case hp =>
    have hr {ctx : Context} {label : Option String} {value : Json} :=
      @check_reference_of_resolve? ⟨_, AliasStep.wellFounded_of_aliasCycle? ha⟩ false ctx label value "tree" _ rfl
    simp [validate, check, checkItems, hr, checkMembers_eq_flatMap, checkMember, checkKeys, extraneousKeys,
      Members.names, Members.lookup_cons, Context.acceptsAbsence, Keyword.admitsAbsence, Node.required, mismatch,
      Violation.error]

end Validate

end JsonShape
