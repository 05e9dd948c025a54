import Mathlib
import JsonShape.Proofs.Validation.Belongs
import JsonShape.Proofs.Validation.Equivariance
import JsonShape.Proofs.Validation.Parts

namespace JsonShape

open Relation Validation

section Absence

variable {space : Typespace} {ctx : Context} {node : Node}

-- The test misses no absence as long as it comes to none of the names on the way.
theorem acceptsAbsence_of_unmet
    (hs : ∀ name ∈ ctx.seen, ¬ReflTransGen (AliasStep space.declarations) (.reference name) node)
    (h : AdmitsAbsence space node) : ctx.acceptsAbsence space.declarations node := by
  induction h generalizing ctx with
  | optional => rw [Context.acceptsAbsence]
  | primitive hk => exact Context.acceptsAbsence_primitive.mpr hk
  | union hm _ hi =>
    exact Context.acceptsAbsence_union.mpr ⟨_, hm, hi fun name hn hl => hs name hn (hl.tail (.member hm))⟩
  | @reference name node hr _ hi =>
    have hn : name ∉ ctx.seen := fun hm => hs name hm .refl
    refine Context.acceptsAbsence_reference.mpr
      ⟨node, _, Context.reference_eq_node_iff.mpr ⟨hr, hn, rfl⟩, hi fun other hm hl => ?_⟩
    rcases List.mem_append.mp hm with hm | hm
    case inl => exact hs other hm (hl.tail (.reference hr))
    case inr =>
      -- The name would stand for itself.
      cases List.mem_singleton.mp hm
      have hc := TransGen.tail' hl (.reference hr)
      exact space.wellFounded.transGen.asymmetric _ _ hc hc

theorem acceptsAbsence_iff :
    Context.acceptsAbsence space.declarations {} node ↔ AdmitsAbsence space node :=
  ⟨admitsAbsence_of_acceptsAbsence, acceptsAbsence_of_unmet (by simp)⟩

instance : Decidable (AdmitsAbsence space node) :=
  decidable_of_iff _ acceptsAbsence_iff

end Absence

-- The node of a slot or member that is there.
def Node.stripped : Node → Node
  | .optional inner => inner
  | node => node

theorem Node.required_eq_stripped {node : Node} : node.required = node.stripped := by
  cases node <;> rfl

-- The one error for keys that no member declares.
def undeclared : List String → List ValidationError
  | [] => []
  | [key] => [⟨[], "Key '" ++ key ++ "' was unexpected."⟩]
  | keys => [⟨[], "Keys " ++ ", ".intercalate (keys.map fun key => "'" ++ key ++ "'") ++ " were unexpected."⟩]

theorem message_unexpected_singleton {key : String} :
    (Violation.unexpected [key]).message = "Key '" ++ key ++ "' was unexpected." := by
  change "Key " ++ ", ".intercalate ["'" ++ key ++ "'"] ++ " was unexpected." = _
  apply String.toList_injective
  simp

theorem checkKeys_eq_undeclared {ignoreExtraneous : Bool} {entries : List (String × Json)}
    {members : List (String × Node)} :
    checkKeys ignoreExtraneous entries members =
      if ignoreExtraneous then []
      else undeclared ((entries.map Prod.fst).filter fun key => key ∉ members.map Prod.fst) := by
  rw [checkKeys, extraneousKeys, Members.names, Members.names]
  generalize (entries.map Prod.fst).filter (fun key => key ∉ members.map Prod.fst) = keys
  cases ignoreExtraneous with
  | true  => rfl
  | false =>
    cases keys with
    | nil => rfl
    | cons key rest =>
      cases rest with
      | nil  => exact congrArg (fun message => [ValidationError.mk [] message]) message_unexpected_singleton
      | cons => rfl

section Validate

-- A value has the same errors wherever it stands, behind the path to it, and so have the items, slots and members of a
-- value. A missing member has one error, and keys that no member declares have one error together, at the root.
theorem validate_compositional (space : Typespace) (options : ValidateOptions) :
    (∀ node value, validate space options node value =
      checkAt space options.ignoreExtraneousKeys {} none [] value node) ∧
    (∀ ctx label path value node,
      checkAt space options.ignoreExtraneousKeys ctx label path value node =
        (check space options.ignoreExtraneousKeys ctx label value node).map fun e => ⟨path ++ e.path, e.message⟩) ∧
    (∀ item items, validate space options (.list item) (.array items) =
      items.zipIdx.flatMap fun place =>
        (validate space options item place.fst).map fun e => ⟨.index place.snd :: e.path, e.message⟩) ∧
    (∀ slots items, leastLength slots ≤ items.length → items.length ≤ slots.length →
      validate space options (.tuple slots) (.array items) =
        (items.zip slots).zipIdx.flatMap fun place =>
          (validate space options place.fst.snd.stripped place.fst.fst).map fun e =>
            ⟨.index place.snd :: e.path, e.message⟩) ∧
    (∀ members entries, validate space options (.struct members) (.object entries) =
      (members.flatMap fun member =>
        (entries.lookup member.fst).elim
          (if AdmitsAbsence space member.snd then []
            else [⟨[.key member.fst], "Required value of type " ++ member.snd.text ++ " was missing."⟩])
          fun value => (validate space options member.snd.stripped value).map fun e =>
            ⟨.key member.fst :: e.path, e.message⟩) ++
      if options.ignoreExtraneousKeys then []
      else undeclared ((entries.map Prod.fst).filter fun key => key ∉ members.map Prod.fst)) := by
  refine ⟨fun node value => ?root, checkAt_eq_map, fun item items => ?list, fun slots items hl hu => ?tuple,
    fun members entries => ?struct⟩
  case root => rw [validate, checkAt_eq_map, placed_nil]
  case list =>
    rw [validate, check]
    exact checkItems_eq_flatMap
  case tuple =>
    have hr : requiredSlots slots ≤ items.length := requiredSlots_eq_leastLength ▸ hl
    rw [validate, check, if_neg (by omega), checkSlots_eq_flatMap]
    simp only [Node.required_eq_stripped]
    rfl
  case struct =>
    rw [validate, check, checkKeys_eq_undeclared, checkMembers_eq_flatMap]
    congr 1
    refine List.flatMap_congr fun member _ => ?_
    cases hl : entries.lookup member.fst with
    | some value =>
      rw [checkMember_of_lookup hl, Node.required_eq_stripped]
      rfl
    | none =>
      rw [checkMember_of_missing hl, Option.elim_none]
      simp only [acceptsAbsence_iff]
      split <;> rfl

-- The second slot is not filled, so all errors are those of the first item.
theorem validate_compositional_pair :
    ∃ space, Typespace.compile [("tree", .object [("children", .string "tree[]")])] = .ok space ∧
      leastLength [.reference "tree", .optional (.primitive .string)] ≤ 1 ∧
      validate space {} (.tuple [.reference "tree", .optional (.primitive .string)])
          (.array [.object [("children", .array [.null])]]) =
        (validate space {} (.reference "tree") (.object [("children", .array [.null])])).map fun e =>
          ⟨.index 0 :: e.path, e.message⟩ := by
  have ha : Declarations.aliasCycle?
      [⟨"tree", .object [("children", .string "tree[]")],
        .struct [("children", .list (.reference "tree"))]⟩] = none := by cbv
  refine ⟨⟨_, AliasStep.wellFounded_of_aliasCycle? ha⟩,
    Typespace.compile_eq_ok_iff.mpr ⟨by cbv, by cbv, ha⟩, by decide, ?_⟩
  obtain ⟨-, -, -, ht, -⟩ := validate_compositional ⟨_, AliasStep.wellFounded_of_aliasCycle? ha⟩ {}
  rw [ht _ _ (by decide) (by decide)]
  exact List.append_nil _

end Validate

end JsonShape
