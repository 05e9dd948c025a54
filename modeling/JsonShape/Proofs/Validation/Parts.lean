import JsonShape.Proofs.Validation.Acceptance

namespace JsonShape

namespace ValidationError

variable {errors : List ValidationError} {segment : Segment}

@[simp]
theorem path_under {e : ValidationError} : (e.under segment).path = segment :: e.path :=
  rfl

theorem map_path_under :
    (errors.map (·.under segment)).map path = (errors.map path).map (segment :: ·) := by
  simp only [List.map_map, Function.comp_def, path_under]

end ValidationError

namespace Validation

variable {space : Typespace} {ignoreExtraneous : Bool} {ctx : Context} {label : Option String}

theorem checkItems_eq_flatMap {index : Nat} {items : List Json} {item : Node} :
    checkItems space ignoreExtraneous ctx index items item =
      (items.zipIdx index).flatMap fun place =>
        (check space ignoreExtraneous ctx none place.fst item).map (·.under (.index place.snd)) := by
  induction items generalizing index with
  | nil => simp [checkItems]
  | cons value rest hi => rw [checkItems, hi, List.zipIdx_cons, List.flatMap_cons]

theorem checkSlots_eq_flatMap {index : Nat} {items : List Json} {slots : List Node} :
    checkSlots space ignoreExtraneous ctx index items slots =
      ((items.zip slots).zipIdx index).flatMap fun place =>
        (check space ignoreExtraneous ctx none place.fst.fst place.fst.snd.required).map
          (·.under (.index place.snd)) := by
  induction items generalizing index slots with
  | nil => simp [checkSlots]
  | cons value rest hi =>
    cases slots with
    | nil => simp [checkSlots]
    | cons slot others =>
      rw [checkSlots, hi, List.zip_cons_cons, List.zipIdx_cons, List.flatMap_cons]

-- The errors of a struct member, relative to its key. A member that is missing has at most one.
def checkMember (space : Typespace) (ignoreExtraneous : Bool) (ctx : Context)
    (entries : List (String × Json)) (member : String × Node) : List ValidationError :=
  (entries.lookup member.fst).elim
    (if ctx.acceptsAbsence space.declarations member.snd then []
      else [(Violation.missing member.snd.text).error])
    fun value => check space ignoreExtraneous ctx none value member.snd.required

section Member

variable {entries : List (String × Json)} {member : String × Node} {value : Json}

theorem checkMember_of_lookup (h : entries.lookup member.fst = some value) :
    checkMember space ignoreExtraneous ctx entries member =
      check space ignoreExtraneous ctx none value member.snd.required := by
  rw [checkMember, h, Option.elim_some]

theorem checkMember_of_missing (h : entries.lookup member.fst = none) :
    checkMember space ignoreExtraneous ctx entries member =
      if ctx.acceptsAbsence space.declarations member.snd then []
      else [(Violation.missing member.snd.text).error] := by
  rw [checkMember, h, Option.elim_none]

end Member

theorem checkMembers_eq_flatMap {entries : List (String × Json)} {members : List (String × Node)} :
    checkMembers space ignoreExtraneous ctx entries members =
      members.flatMap fun member =>
        (checkMember space ignoreExtraneous ctx entries member).map (·.under (.key member.fst)) := by
  induction members with
  | nil => simp [checkMembers]
  | cons member rest hi =>
    rw [checkMembers, hi, List.flatMap_cons]
    split
    case h_1 hl => rw [checkMember_of_lookup hl]
    case h_2 hl => rw [checkMember_of_missing hl]

-- No error, or one of the value as a whole.
inductive IsWhole : List ValidationError → Prop
  | nothing : IsWhole []
  | error (v : Violation) : IsWhole [v.error]

theorem mismatch_isWhole {value : Json} {node : Node} : IsWhole (mismatch label value node) :=
  .error _

theorem checkKeys_isWhole {entries : List (String × Json)} {members : List (String × Node)} :
    IsWhole (checkKeys ignoreExtraneous entries members) := by
  rw [checkKeys]
  split
  case isTrue  => exact .nothing
  case isFalse => exact .error _

-- Errors that a check can find. A union has at most one: what its members find is shown in the message.
inductive Findings (space : Typespace) : Json → Node → List ValidationError → Prop
  | whole {value : Json} {node : Node} {errors : List ValidationError} :
      IsWhole errors → Findings space value node errors
  | reference {value : Json} {name : String} {node : Node} {errors : List ValidationError} :
      space.resolve? name = some node → Findings space value node errors →
      Findings space value (.reference name) errors
  | optional {value : Json} {node : Node} {errors : List ValidationError} :
      Findings space value node errors → Findings space value (.optional node) errors
  | items {items : List Json} {item : Node} {found : Json × Nat → List ValidationError} :
      (∀ place ∈ items.zipIdx, Findings space place.fst item (found place)) →
      Findings space (.array items) (.list item)
        (items.zipIdx.flatMap fun place => (found place).map (·.under (.index place.snd)))
  | slots {items : List Json} {slots : List Node} {found : (Json × Node) × Nat → List ValidationError} :
      (∀ place ∈ (items.zip slots).zipIdx, Findings space place.fst.fst place.fst.snd.required (found place)) →
      Findings space (.array items) (.tuple slots)
        ((items.zip slots).zipIdx.flatMap fun place => (found place).map (·.under (.index place.snd)))
  | members {entries : List (String × Json)} {members : List (String × Node)}
      {found : String × Node → List ValidationError} {rest : List ValidationError} :
      (∀ member ∈ members, ∀ part, entries.lookup member.fst = some part →
        Findings space part member.snd.required (found member)) →
      (∀ member ∈ members, entries.lookup member.fst = none → IsWhole (found member)) → IsWhole rest →
      Findings space (.object entries) (.struct members)
        (members.flatMap (fun member => (found member).map (·.under (.key member.fst))) ++ rest)

theorem check_findings {value : Json} {node : Node} :
    Findings space value node (check space ignoreExtraneous ctx label value node) := by
  induction value, node using space.induction generalizing ctx label
  case h value node hp hs =>
  cases node with
  | primitive | literal =>
    simp only [check]
    split
    case isTrue  => exact .whole .nothing
    case isFalse => exact .whole mismatch_isWhole
  | reference name =>
    cases hr : space.resolve? name with
    | none =>
      rw [check_reference_of_unresolved hr]
      exact .whole (.error _)
    | some node =>
      rw [check_reference_of_resolve? hr]
      exact .reference hr (hs node (.reference hr))
  | list item =>
    cases value with
    | array items =>
      simp only [check, checkItems_eq_flatMap]
      exact .items fun place hm => hp place.fst item (Json.sizeOf_item_lt (List.fst_mem_of_mem_zipIdx hm))
    | _ =>
      simp only [check]
      exact .whole mismatch_isWhole
  | tuple slots =>
    cases value with
    | array items =>
      simp only [check]
      split
      case isTrue  => exact .whole (.error _)
      case isFalse =>
        rw [checkSlots_eq_flatMap]
        refine .slots fun place hm => hp place.fst.fst _ (Json.sizeOf_item_lt ?_)
        exact (List.of_mem_zip (List.fst_mem_of_mem_zipIdx hm)).left
    | _ =>
      simp only [check]
      exact .whole mismatch_isWhole
  | union members =>
    simp only [check]
    split
    case h_1 => exact .whole .nothing
    case h_2 => exact .whole (.error _)
  | optional inside =>
    simp only [check]
    exact .optional (hs inside .optional)
  | struct members =>
    cases value with
    | object entries =>
      simp only [check, checkMembers_eq_flatMap]
      refine .members (fun member _ part hl => ?found) (fun member _ hl => ?missing) checkKeys_isWhole
      case found =>
        rw [checkMember_of_lookup hl]
        exact hp part _ (Json.sizeOf_entry_lt hl)
      case missing =>
        rw [checkMember_of_missing hl]
        split
        case isTrue  => exact .nothing
        case isFalse => exact .error _
    | _ =>
      simp only [check]
      exact .whole mismatch_isWhole

end Validation

end JsonShape
