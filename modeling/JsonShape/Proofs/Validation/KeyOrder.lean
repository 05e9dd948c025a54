import Mathlib
import JsonShape.Proofs.Json.Entries
import JsonShape.Proofs.Typespace.Compiled
import JsonShape.Proofs.Validation.Acceptance
import JsonShape.Proofs.Validation.Parts

namespace JsonShape

open Validation

namespace Json

-- The values differ in nothing but the order of keys, in objects at any depth.
inductive Rearranged : Json → Json → Prop
  | same   : Rearranged value value
  | array  : List.Forall₂ Rearranged items others → Rearranged (.array items) (.array others)
  | object {entries moved others : List (String × Json)} : entries.Perm moved →
      Members.Related Rearranged moved others → Rearranged (.object entries) (.object others)

variable {value other : Json}

theorem KeysDistinct.of_array {items : List Json} (h : (Json.array items).KeysDistinct) :
    ∀ item ∈ items, item.KeysDistinct := by
  cases h
  assumption

theorem KeysDistinct.of_object {entries : List (String × Json)} (h : (Json.object entries).KeysDistinct) :
    Members.Distinct entries ∧ ∀ entry ∈ entries, entry.snd.KeysDistinct := by
  cases h
  exact ⟨‹_›, ‹_›⟩

theorem Rearranged.keyword_admits {keyword : Keyword} (h : value.Rearranged other) :
    keyword.admits other = keyword.admits value := by
  cases h
  case same => rfl
  all_goals cases keyword <;> rfl

theorem Rearranged.literal_admits {l : Literal} (h : value.Rearranged other) :
    l.admits other = l.admits value := by
  cases h
  case same => rfl
  all_goals cases l <;> rfl

end Json

namespace Validation

variable {space : Typespace} {ignoreExtraneous : Bool} {ctx : Context} {label : Option String}

-- Whatever the values are checked against, they have errors at the same paths.
def Alike (space : Typespace) (ignoreExtraneous : Bool) (value other : Json) : Prop :=
  ∀ ctx label node, (check space ignoreExtraneous ctx label value node).map ValidationError.path =
    (check space ignoreExtraneous ctx label other node).map ValidationError.path

theorem forall₂_alike {items others : List Json} (h : List.Forall₂ Json.Rearranged items others)
    (ha : ∀ part ∈ items, ∀ other, part.Rearranged other → Alike space ignoreExtraneous part other) :
    List.Forall₂ (Alike space ignoreExtraneous) items others :=
  ((List.forall₂_and_left items others).mpr ⟨ha, h⟩).imp fun _ other h => h.left other h.right

theorem lookup_alike {entries others : List (String × Json)} {key : String}
    (h : Option.Rel Json.Rearranged (entries.lookup key) (others.lookup key))
    (ha : ∀ part, entries.lookup key = some part → ∀ other, part.Rearranged other →
      Alike space ignoreExtraneous part other) :
    Option.Rel (Alike space ignoreExtraneous) (entries.lookup key) (others.lookup key) := by
  generalize entries.lookup key = found at h ha ⊢
  generalize others.lookup key = found' at h ⊢
  cases h with
  | none    => exact .none
  | some hr => exact .some (ha _ rfl _ hr)

theorem checkItems_alike {index : Nat} {items others : List Json} {item : Node}
    (h : List.Forall₂ (Alike space ignoreExtraneous) items others) :
    (checkItems space ignoreExtraneous ctx index items item).map ValidationError.path =
      (checkItems space ignoreExtraneous ctx index others item).map ValidationError.path := by
  induction h generalizing index with
  | nil => rfl
  | cons ha _ hi =>
    simp only [checkItems, List.map_append, ValidationError.map_path_under]
    rw [ha, hi]

theorem checkSlots_alike {index : Nat} {items others : List Json} {slots : List Node}
    (h : List.Forall₂ (Alike space ignoreExtraneous) items others) :
    (checkSlots space ignoreExtraneous ctx index items slots).map ValidationError.path =
      (checkSlots space ignoreExtraneous ctx index others slots).map ValidationError.path := by
  induction h generalizing index slots with
  | nil => rfl
  | cons ha _ hi =>
    cases slots with
    | nil => simp only [checkSlots]
    | cons slot rest =>
      simp only [checkSlots, List.map_append, ValidationError.map_path_under]
      rw [ha, hi]

theorem checkMembers_alike {entries others : List (String × Json)} {members : List (String × Node)}
    (h : ∀ key, Option.Rel (Alike space ignoreExtraneous) (entries.lookup key) (others.lookup key)) :
    (checkMembers space ignoreExtraneous ctx entries members).map ValidationError.path =
      (checkMembers space ignoreExtraneous ctx others members).map ValidationError.path := by
  simp only [checkMembers_eq_flatMap, List.map_flatMap, ValidationError.map_path_under]
  refine List.flatMap_congr fun member _ => congrArg _ ?_
  have hm := h member.fst
  generalize he : entries.lookup member.fst = found at hm
  generalize ho : others.lookup member.fst = found' at hm
  cases hm with
  | none => rw [checkMember_of_missing he, checkMember_of_missing ho]
  | some ha =>
    rw [checkMember_of_lookup he, checkMember_of_lookup ho]
    exact ha _ _ _

theorem checkKeys_alike {entries others : List (String × Json)} {members : List (String × Node)}
    (h : (Members.names entries).Perm (Members.names others)) :
    (checkKeys ignoreExtraneous entries members).map ValidationError.path =
      (checkKeys ignoreExtraneous others members).map ValidationError.path := by
  have hk : (extraneousKeys entries members).isEmpty = (extraneousKeys others members).isEmpty :=
    (h.filter _).isEmpty_eq
  simp only [checkKeys, hk]
  split <;> rfl

theorem check_union_alike {value other : Json} {members : List Node}
    (h : ∀ member ∈ members, Accepts space ignoreExtraneous ctx value member ↔
      Accepts space ignoreExtraneous ctx other member) :
    (check space ignoreExtraneous ctx label value (.union members)).map ValidationError.path =
      (check space ignoreExtraneous ctx label other (.union members)).map ValidationError.path := by
  have hu : checkUnion space ignoreExtraneous ctx value members = none ↔
      checkUnion space ignoreExtraneous ctx other members = none := by
    rw [checkUnion_eq_none_iff, checkUnion_eq_none_iff]
    exact exists_congr fun member => and_congr_right (h member)
  cases hv : checkUnion space ignoreExtraneous ctx value members with
  | none => simp only [check, hv, hu.mp hv]
  | some reasons =>
    cases ho : checkUnion space ignoreExtraneous ctx other members with
    | none => cases hv.symm.trans (hu.mpr ho)
    | some others =>
      simp only [check, hv, ho]
      rfl

-- Reasons and values are shown in messages, so of the check of a union only its verdict is compared.
theorem check_rearranged {value other : Json} {node : Node} (h : value.Rearranged other)
    (hd : value.KeysDistinct) :
    (check space ignoreExtraneous ctx label value node).map ValidationError.path =
      (check space ignoreExtraneous ctx label other node).map ValidationError.path := by
  induction value, node using space.induction generalizing other ctx label
  case h value node hp hs =>
  have ha : ∀ part, sizeOf part < sizeOf value → part.KeysDistinct → ∀ other, part.Rearranged other →
      Alike space ignoreExtraneous part other :=
    fun part hl hd other h ctx label node => hp part node hl h hd
  cases node with
  | primitive keyword =>
    simp only [check, h.keyword_admits]
    split <;> rfl
  | literal l =>
    simp only [check, h.literal_admits]
    split <;> rfl
  | reference name =>
    cases hr : space.resolve? name with
    | none => rw [check_reference_of_unresolved hr, check_reference_of_unresolved hr]
    | some node =>
      rw [check_reference_of_resolve? hr, check_reference_of_resolve? hr]
      exact hs node (.reference hr) h hd
  | list item =>
    cases h with
    | same => rfl
    | array hf =>
      simp only [check]
      exact checkItems_alike (forall₂_alike hf fun part hm => ha part (Json.sizeOf_item_lt hm) (hd.of_array part hm))
    | object => simp only [check, mismatch, List.map_cons, List.map_nil, Violation.error]
  | tuple slots =>
    cases h with
    | same => rfl
    | array hf =>
      simp only [check, hf.length_eq]
      split
      case isTrue => rfl
      case isFalse =>
        exact checkSlots_alike (forall₂_alike hf fun part hm => ha part (Json.sizeOf_item_lt hm) (hd.of_array part hm))
    | object => simp only [check, mismatch, List.map_cons, List.map_nil, Violation.error]
  | union members =>
    refine check_union_alike fun member hm => ?_
    rw [Accepts, Accepts, ← List.map_eq_nil_iff (f := ValidationError.path),
      hs member (.member hm) h hd, List.map_eq_nil_iff]
  | optional inner =>
    simp only [check]
    exact hs inner .optional h hd
  | struct members =>
    cases h with
    | same => rfl
    | array => simp only [check, mismatch, List.map_cons, List.map_nil, Violation.error]
    | @object entries moved others hm hr =>
      obtain ⟨he, hv⟩ := hd.of_object
      simp only [check, List.map_append]
      rw [checkMembers_alike fun key => ?lookup, checkKeys_alike ?names]
      case names =>
        have hn : Members.names moved = Members.names others := hr.names_eq
        exact hn ▸ hm.map Prod.fst
      case lookup =>
        refine lookup_alike ?_ fun part hl => ha part (Json.sizeOf_entry_lt hl) (hv _ (Members.mem_of_lookup hl))
        rw [Members.lookup_perm he hm]
        exact hr.lookup key

end Validation

section Validate

theorem validate_rearranged {value other : Json} (h : value.Rearranged other) (hd : value.KeysDistinct)
    (space : Typespace) (options : ValidateOptions) (node : Node) :
    (validate space options node value).map ValidationError.path =
        (validate space options node other).map ValidationError.path ∧
      (validate space options node value = [] ↔ validate space options node other = []) := by
  have hp : (validate space options node value).map ValidationError.path =
      (validate space options node other).map ValidationError.path := check_rearranged h hd
  refine ⟨hp, ?_⟩
  rw [← List.map_eq_nil_iff (f := ValidationError.path), hp, List.map_eq_nil_iff]

-- Two keys that are not declared stand in front of the declared ones, or behind them.
theorem validate_rearranged_tree :
    ∃ space value other,
      Typespace.compile [("tree", .object [("left?", .string "tree"), ("right?", .string "tree")])] =
        .ok space ∧
      value.Rearranged other ∧ value.KeysDistinct ∧
      (validate space {} (.reference "tree") value).map ValidationError.path =
        [[.key "left"], [.key "right"], []] ∧
      (validate space {} (.reference "tree") value).map ValidationError.path =
        (validate space {} (.reference "tree") other).map ValidationError.path ∧
      (validate space {} (.reference "tree") value = [] ↔
        validate space {} (.reference "tree") other = []) := by
  have ha : Declarations.aliasCycle?
      [⟨"tree", .object [("left?", .string "tree"), ("right?", .string "tree")],
        .struct [("left", .optional (.reference "tree")), ("right", .optional (.reference "tree"))]⟩] =
      none := by cbv
  refine ⟨⟨_, AliasStep.wellFounded_of_aliasCycle? ha⟩,
    .object [("color", .null), ("left", .object [("size", .null), ("left", .object [])]), ("right", .null)],
    .object [("left", .object [("left", .object []), ("size", .null)]), ("color", .null), ("right", .null)],
    Typespace.compile_eq_ok_iff.mpr ⟨by cbv, by cbv, ha⟩, ?hr, ?hd, ?hp,
    validate_rearranged ?hr ?hd _ {} _⟩
  case hr =>
    have hl : Json.Rearranged (.object [("size", .null), ("left", .object [])])
        (.object [("left", .object []), ("size", .null)]) :=
      .object (.swap ..) (.cons .same (.cons .same .nil))
    exact .object (.swap ..) (.cons hl (.cons .same (.cons .same .nil)))
  case hd =>
    refine .object (by simp [Members.Distinct, Members.names]) ?_
    simp only [List.forall_mem_cons, List.not_mem_nil, false_imp_iff, implies_true, and_true]
    refine ⟨.null, .object (by simp [Members.Distinct, Members.names]) ?_, .null⟩
    simp only [List.forall_mem_cons, List.not_mem_nil, false_imp_iff, implies_true, and_true]
    exact ⟨.null, .object .nil (by simp)⟩
  case hp =>
    have hr {ctx : Context} {label : Option String} {value : Json} :=
      @check_reference_of_resolve? ⟨_, AliasStep.wellFounded_of_aliasCycle? ha⟩ false ctx label value "tree" _ rfl
    simp [validate, check, hr, checkMembers_eq_flatMap, checkMember, checkKeys, extraneousKeys,
      Members.names, Members.lookup_cons, Context.acceptsAbsence, Node.required, mismatch, Violation.error]

end Validate

end JsonShape
