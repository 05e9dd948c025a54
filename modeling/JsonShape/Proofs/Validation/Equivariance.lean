import Mathlib
import JsonShape.Proofs.Validation.Acceptance

namespace JsonShape

-- A violation of the value at this path.
def Violation.errorAt (v : Violation) (path : Path) : ValidationError :=
  ⟨path, v.message⟩

-- An error of the value at this path, as one of the value at the root.
def ValidationError.placed (path : Path) (e : ValidationError) : ValidationError :=
  ⟨path ++ e.path, e.message⟩

namespace Validation

mutual

-- The mismatches of a node and the value at this path, which is handed down and gets longer on the way.
def checkAt (space : Typespace) (ignoreExtraneous : Bool) (ctx : Context) (label : Option String)
    (path : Path) (value : Json) (node : Node) : List ValidationError :=
  let mismatches := [(Violation.notAssignable value (label.getD node.text)).errorAt path]
  match node with
  | .primitive keyword => if keyword.admits value then [] else mismatches
  | .literal literal => if literal.admits value then [] else mismatches
  | .reference name =>
    match h : ctx.reference space.declarations name with
    | .node resolved inside =>
      have := space.aliasHeight_lt_of_resolve? (Context.reference_eq_node_iff.mp h).1
      checkAt space ignoreExtraneous inside (label.getD name) path value resolved
    | .cycle resolved _ =>
      have := space.aliasHeight_lt_of_resolve? (Context.reference_eq_cycle_iff.mp h).1
      checkAt space ignoreExtraneous ctx (label.getD name) path value resolved
    | .unresolved => [(Violation.unknownType name).errorAt path]
  | .list item =>
    match value with
    | .array items => checkItemsAt space ignoreExtraneous ctx path 0 items item
    | _ => mismatches
  | .tuple slots =>
    match value with
    | .array items =>
      if items.length < requiredSlots slots ∨ slots.length < items.length then
        [(Violation.tupleLength items.length (requiredSlots slots) slots.length).errorAt path]
      else checkSlotsAt space ignoreExtraneous ctx path 0 items slots
    | _ => mismatches
  | .union members =>
    match checkUnionAt space ignoreExtraneous ctx value members with
    | none => []
    | some reasons => [(Violation.notAssignableToAny value (label.getD node.text) reasons).errorAt path]
  | .optional inner => checkAt space ignoreExtraneous ctx label path value inner
  | .struct members =>
    match value with
    | .object entries =>
      let keys := extraneousKeys entries members
      checkMembersAt space ignoreExtraneous ctx path entries members ++
        if ignoreExtraneous ∨ keys.isEmpty then [] else [(Violation.unexpected keys).errorAt path]
    | _ => mismatches
termination_by (sizeOf value, space.aliasHeight node, sizeOf node)
decreasing_by
  · exact .right _ (.left _ _ this)
  · exact .right _ (.left _ _ this)
  · exact .left _ _ (by simp)
  · exact .left _ _ (by simp)
  · exact .right _ (.right _ (by simp))
  · exact space.aliasHeight_optional ▸ .right _ (.right _ (by simp))
  · exact .left _ _ (by simp)

def checkItemsAt (space : Typespace) (ignoreExtraneous : Bool) (ctx : Context) (path : Path) (index : Nat)
    (items : List Json) (item : Node) : List ValidationError :=
  match items with
  | [] => []
  | value :: rest =>
    checkAt space ignoreExtraneous ctx none (path ++ [.index index]) value item ++
      checkItemsAt space ignoreExtraneous ctx path (index + 1) rest item
termination_by (sizeOf items, 0, 0)

def checkSlotsAt (space : Typespace) (ignoreExtraneous : Bool) (ctx : Context) (path : Path) (index : Nat)
    (items : List Json) (slots : List Node) : List ValidationError :=
  match items, slots with
  | value :: rest, slot :: others =>
    checkAt space ignoreExtraneous ctx none (path ++ [.index index]) value slot.required ++
      checkSlotsAt space ignoreExtraneous ctx path (index + 1) rest others
  | _, _ => []
termination_by (sizeOf items, 0, 0)

-- Why each member of a union refuses a value. The reasons are shown in one error, so their paths start anew.
def checkUnionAt (space : Typespace) (ignoreExtraneous : Bool) (ctx : Context) (value : Json)
    (members : List Node) : Option (List String) :=
  match members with
  | [] => some []
  | member :: rest =>
    match checkAt space ignoreExtraneous ctx none [] value member with
    | [] => none
    | errors =>
      let reasons := "; ".intercalate (errors.map ValidationError.text)
      (checkUnionAt space ignoreExtraneous ctx value rest).map (s!"{member.text}: {reasons}" :: ·)
termination_by (sizeOf value, space.aliasHeight (.union members), sizeOf members)
decreasing_by all_goals
  refine .right _ (.right' _ ?_ (by simp only [List.cons.sizeOf_spec]; omega))
  rw [Typespace.aliasHeight_union_cons]
  omega

def checkMembersAt (space : Typespace) (ignoreExtraneous : Bool) (ctx : Context) (path : Path)
    (entries : List (String × Json)) (members : List (String × Node)) : List ValidationError :=
  match members with
  | [] => []
  | (key, member) :: rest =>
    let found :=
      match h : entries.lookup key with
      | some value =>
        have := Members.sizeOf_lt_of_lookup h
        checkAt space ignoreExtraneous ctx none (path ++ [.key key]) value member.required
      | none =>
        if ctx.acceptsAbsence space.declarations member then []
        else [(Violation.missing member.text).errorAt (path ++ [.key key])]
    found ++ checkMembersAt space ignoreExtraneous ctx path entries rest
termination_by (sizeOf entries, 1, sizeOf members)

end

variable {space : Typespace} {ignoreExtraneous : Bool} {ctx : Context} {label : Option String} {path : Path}

@[simp]
theorem placed_error {v : Violation} : v.error.placed path = v.errorAt path := by
  simp only [Violation.error, ValidationError.placed, Violation.errorAt, List.append_nil]

theorem placed_nil {errors : List ValidationError} : errors.map (·.placed []) = errors :=
  List.map_id errors

-- What is below a segment of a path is below the longer path.
theorem map_under_placed {segment : Segment} {errors : List ValidationError} :
    (errors.map (·.under segment)).map (·.placed path) = errors.map (·.placed (path ++ [segment])) := by
  rw [List.map_map]
  refine List.map_congr_left fun e _ => ?_
  simp only [Function.comp_apply, ValidationError.placed, ValidationError.under, List.append_assoc,
    List.singleton_append]

theorem checkAt_reference_of_resolve? {name : String} {value : Json} {node : Node}
    (h : space.resolve? name = some node) :
    checkAt space ignoreExtraneous ctx label path value (.reference name) =
      checkAt space ignoreExtraneous (ctx.entering name) (label.getD name) path value node := by
  rw [checkAt, Context.entering]
  by_cases hs : name ∈ ctx.seen
  case pos =>
    have hr := Context.reference_eq_cycle_iff.mpr ⟨h, hs, rfl⟩
    split <;> simp_all
  case neg =>
    have hr := Context.reference_eq_node_iff.mpr ⟨h, hs, rfl⟩
    split <;> simp_all

theorem checkAt_reference_of_unresolved {name : String} {value : Json} (h : space.resolve? name = none) :
    checkAt space ignoreExtraneous ctx label path value (.reference name) =
      [(Violation.unknownType name).errorAt path] := by
  have hr : ctx.reference space.declarations name = .unresolved :=
    Context.reference_eq_unresolved_iff.mpr (Declarations.resolve?_eq_none_iff.mp h)
  rw [checkAt]
  split <;> simp_all

-- The place of the value shows in the paths alone.
def Equivariant (space : Typespace) (ignoreExtraneous : Bool) (ctx : Context) (value : Json) (node : Node) : Prop :=
  ∀ path, checkAt space ignoreExtraneous ctx none path value node =
    (check space ignoreExtraneous ctx none value node).map (·.placed path)

section Parts

theorem checkItemsAt_eq {index : Nat} {items : List Json} {item : Node}
    (h : ∀ value ∈ items, Equivariant space ignoreExtraneous ctx value item) :
    checkItemsAt space ignoreExtraneous ctx path index items item =
      (checkItems space ignoreExtraneous ctx index items item).map (·.placed path) := by
  induction items generalizing index with
  | nil => rw [checkItemsAt, checkItems, List.map_nil]
  | cons value rest hi =>
    obtain ⟨hv, hr⟩ := List.forall_mem_cons.mp h
    rw [checkItemsAt, checkItems, List.map_append, map_under_placed, hv, hi hr]

theorem checkSlotsAt_eq {index : Nat} {items : List Json} {slots : List Node}
    (h : ∀ value ∈ items, ∀ slot ∈ slots, Equivariant space ignoreExtraneous ctx value slot.required) :
    checkSlotsAt space ignoreExtraneous ctx path index items slots =
      (checkSlots space ignoreExtraneous ctx index items slots).map (·.placed path) := by
  induction items generalizing index slots with
  | nil => simp [checkSlotsAt, checkSlots]
  | cons value rest hi =>
    cases slots with
    | nil => simp [checkSlotsAt, checkSlots]
    | cons slot others =>
      have hv := h value (.head _) slot (.head _)
      rw [checkSlotsAt, checkSlots, List.map_append, map_under_placed, hv,
        hi fun value hv slot hs => h value (.tail _ hv) slot (.tail _ hs)]

-- The members are checked at the root, wherever the value stands.
theorem checkUnionAt_eq {value : Json} {members : List Node}
    (h : ∀ member ∈ members, Equivariant space ignoreExtraneous ctx value member) :
    checkUnionAt space ignoreExtraneous ctx value members =
      checkUnion space ignoreExtraneous ctx value members := by
  induction members with
  | nil => rw [checkUnionAt, checkUnion]
  | cons member rest hi =>
    obtain ⟨hm, hr⟩ := List.forall_mem_cons.mp h
    rw [checkUnionAt, checkUnion, hm, placed_nil]
    cases check space ignoreExtraneous ctx none value member with
    | nil  => rfl
    | cons => exact congrArg (Option.map _) (hi hr)

section Members

variable {key : String} {member : Node} {entries : List (String × Json)} {rest : List (String × Node)}

theorem checkMembersAt_of_lookup {value : Json} (h : entries.lookup key = some value) :
    checkMembersAt space ignoreExtraneous ctx path entries ((key, member) :: rest) =
      checkAt space ignoreExtraneous ctx none (path ++ [.key key]) value member.required ++
        checkMembersAt space ignoreExtraneous ctx path entries rest := by
  rw [checkMembersAt]
  split
  case h_1 hl =>
    cases h.symm.trans hl
    rfl
  case h_2 hl => cases h.symm.trans hl

theorem checkMembersAt_of_missing (h : entries.lookup key = none) :
    checkMembersAt space ignoreExtraneous ctx path entries ((key, member) :: rest) =
      (if ctx.acceptsAbsence space.declarations member then []
        else [(Violation.missing member.text).errorAt (path ++ [.key key])]) ++
        checkMembersAt space ignoreExtraneous ctx path entries rest := by
  rw [checkMembersAt]
  split
  case h_1 hl => cases h.symm.trans hl
  case h_2    => rfl

end Members

theorem checkMembersAt_eq {entries : List (String × Json)} {members : List (String × Node)}
    (h : ∀ member ∈ members, ∀ value, entries.lookup member.fst = some value →
      Equivariant space ignoreExtraneous ctx value member.snd.required) :
    checkMembersAt space ignoreExtraneous ctx path entries members =
      (checkMembers space ignoreExtraneous ctx entries members).map (·.placed path) := by
  induction members with
  | nil => rw [checkMembersAt, checkMembers, List.map_nil]
  | cons member rest hi =>
    obtain ⟨key, member⟩ := member
    obtain ⟨hm, hr⟩ := List.forall_mem_cons.mp h
    cases hl : entries.lookup key with
    | some value =>
      rw [checkMembersAt_of_lookup hl, checkMembers_of_lookup hl, List.map_append, map_under_placed, hm value hl,
        hi hr]
    | none =>
      rw [checkMembersAt_of_missing hl, checkMembers_of_missing hl, List.map_append, map_under_placed, hi hr]
      split <;> simp

end Parts

-- The induction is on the value and the alias steps of the node. It needs every path, since the parts stand further down.
theorem checkAt_eq_map (ctx : Context) (label : Option String) (path : Path) (value : Json) (node : Node) :
    checkAt space ignoreExtraneous ctx label path value node =
      (check space ignoreExtraneous ctx label value node).map (·.placed path) := by
  induction value, node using space.induction generalizing ctx label path
  case h value node hp hs =>
  cases node with
  | primitive | literal =>
    simp only [checkAt, check]
    split <;> simp [mismatch]
  | reference name =>
    cases hr : space.resolve? name with
    | none =>
      rw [check_reference_of_unresolved hr, checkAt_reference_of_unresolved hr, List.map_singleton, placed_error]
    | some node =>
      rw [check_reference_of_resolve? hr, checkAt_reference_of_resolve? hr]
      exact hs node (.reference hr) _ _ _
  | list item =>
    cases value with
    | array items =>
      rw [checkAt, check]
      exact checkItemsAt_eq fun part hm => hp part item (Json.sizeOf_item_lt hm) ctx none
    | _ => simp [checkAt, check, mismatch]
  | tuple slots =>
    cases value with
    | array items =>
      simp only [checkAt, check]
      split
      case isTrue  => simp
      case isFalse => exact checkSlotsAt_eq fun part hm slot _ => hp part _ (Json.sizeOf_item_lt hm) ctx none
    | _ => simp [checkAt, check, mismatch]
  | union members =>
    rw [checkAt, check, checkUnionAt_eq fun member hm => hs member (.member hm) ctx none]
    cases checkUnion space ignoreExtraneous ctx value members <;> simp
  | optional inner =>
    rw [checkAt, check]
    exact hs inner .optional _ _ _
  | struct members =>
    cases value with
    | object entries =>
      rw [checkAt, check, List.map_append, checkKeys,
        checkMembersAt_eq fun member _ part hl => hp part _ (Json.sizeOf_entry_lt hl) ctx none]
      congr 1
      split <;> simp
    | _ => simp [checkAt, check, mismatch]

end Validation

end JsonShape
