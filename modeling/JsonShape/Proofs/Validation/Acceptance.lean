import JsonShape.Proofs.Typespace.Induction
import JsonShape.Validation.Verdict

namespace JsonShape

open Validation

namespace Context

variable {space : Declarations} {ctx : Context}

theorem acceptsAbsence_of_isOptional {node : Node} (h : node.isOptional) :
    ctx.acceptsAbsence space node := by
  cases node
  case optional => rw [acceptsAbsence]
  all_goals cases h

theorem acceptsAbsence_primitive {keyword : Keyword} :
    ctx.acceptsAbsence space (.primitive keyword) ↔
      keyword ∈ [Keyword.undefined, .void, .any, .unknown] := by
  rw [acceptsAbsence]
  exact Keyword.admitsAbsence_iff

theorem acceptsAbsence_union {members : List Node} :
    ctx.acceptsAbsence space (.union members) ↔
      ∃ member ∈ members, ctx.acceptsAbsence space member := by
  rw [acceptsAbsence]
  induction members with
  | nil => simp [anyAcceptsAbsence]
  | cons member rest hi => simp [anyAcceptsAbsence, hi]

theorem acceptsAbsence_reference {name : String} :
    ctx.acceptsAbsence space (.reference name) ↔
      ∃ node inside, ctx.reference space name = .node node inside ∧
        inside.acceptsAbsence space node := by
  rw [acceptsAbsence]
  split
  case h_1 resolved inside hr =>
    constructor
    case mp => exact fun h => ⟨resolved, inside, hr, h⟩
    case mpr =>
      rintro ⟨_, _, he, h⟩
      cases hr.symm.trans he
      exact h
  all_goals simp_all

theorem acceptsAbsence_reference_of_node {name : String} {node : Node} {inside : Context}
    (h : ctx.reference space name = .node node inside) :
    ctx.acceptsAbsence space (.reference name) = inside.acceptsAbsence space node := by
  rw [acceptsAbsence]
  split <;> simp_all

-- A name that is met again or stands for nothing leads to no absence.
theorem acceptsAbsence_reference_eq_false {name : String}
    (h : ∀ node inside, ctx.reference space name ≠ .node node inside) :
    ctx.acceptsAbsence space (.reference name) = false := by
  rw [acceptsAbsence]
  split
  case h_1 hr => exact absurd hr (h _ _)
  all_goals rfl

end Context

namespace Validation

variable {space : Typespace} {ignoreExtraneous : Bool} {ctx : Context} {label : Option String}
variable {value : Json}

theorem check_reference_of_resolve? {name : String} {node : Node}
    (h : space.resolve? name = some node) :
    check space ignoreExtraneous ctx label value (.reference name) =
      check space ignoreExtraneous (ctx.entering name) (label.getD name) value node := by
  rw [check]
  split
  case h_1 hr =>
    obtain ⟨hs, hn, rfl⟩ := Context.reference_eq_node_iff.mp hr
    cases h.symm.trans hs
    simp only [Context.entering, if_neg hn]
  case h_2 hr =>
    obtain ⟨hs, hn, _⟩ := Context.reference_eq_cycle_iff.mp hr
    cases h.symm.trans hs
    simp only [Context.entering, if_pos hn]
  case h_3 hr =>
    have hn := Declarations.resolve?_eq_none_iff.mpr (Context.reference_eq_unresolved_iff.mp hr)
    cases h.symm.trans hn

theorem check_reference_of_unresolved {name : String} (h : space.resolve? name = none) :
    check space ignoreExtraneous ctx label value (.reference name) =
      [(Violation.unknownType name).error] := by
  have hr : ctx.reference space.declarations name = .unresolved :=
    Context.reference_eq_unresolved_iff.mpr (Declarations.resolve?_eq_none_iff.mp h)
  rw [check]
  split
  case h_1 hc => rw [hr] at hc; cases hc
  case h_2 hc => rw [hr] at hc; cases hc
  case h_3    => rfl

theorem mismatch_ne_nil {node : Node} : mismatch label value node ≠ [] := by
  simp [mismatch]

theorem check_label_eq_nil_iff (node : Node) :
    check space ignoreExtraneous ctx label value node = [] ↔
      check space ignoreExtraneous ctx none value node = [] := by
  induction node using space.wellFounded.induction generalizing ctx label
  case _ node hi =>
    cases node
    case reference name =>
      cases hr : space.resolve? name with
      | none      => simp only [check_reference_of_unresolved hr]
      | some node =>
        simp only [check_reference_of_resolve? hr]
        rw [hi node (.reference hr), ← hi node (.reference hr)]
    case optional inner =>
      simp only [check]
      exact hi inner .optional
    case union members =>
      simp only [check]
      split <;> simp
    case primitive | literal =>
      simp only [check]
      split <;> simp [mismatch_ne_nil]
    case list | tuple | struct =>
      cases value <;> simp [check, mismatch_ne_nil]

-- The value is accepted with these names on the way.
def Accepts (space : Typespace) (ignoreExtraneous : Bool) (ctx : Context) (value : Json)
    (node : Node) : Prop :=
  check space ignoreExtraneous ctx none value node = []

theorem accepts_primitive {keyword : Keyword} :
    Accepts space ignoreExtraneous ctx value (.primitive keyword) ↔ keyword.admits value := by
  simp only [Accepts, check]
  split <;> simp_all [mismatch_ne_nil]

theorem accepts_literal {l : Literal} :
    Accepts space ignoreExtraneous ctx value (.literal l) ↔ l.admits value := by
  simp only [Accepts, check]
  split <;> simp_all [mismatch_ne_nil]

theorem accepts_reference {name : String} :
    Accepts space ignoreExtraneous ctx value (.reference name) ↔
      ∃ node, space.resolve? name = some node ∧
        Accepts space ignoreExtraneous (ctx.entering name) value node := by
  cases hr : space.resolve? name with
  | none      => simp [Accepts, check_reference_of_unresolved hr]
  | some node => simp [Accepts, check_reference_of_resolve? hr, check_label_eq_nil_iff node]

theorem accepts_optional {inner : Node} :
    Accepts space ignoreExtraneous ctx value (.optional inner) ↔
      Accepts space ignoreExtraneous ctx value inner := by
  simp only [Accepts, check]

theorem accepts_required {node : Node} :
    Accepts space ignoreExtraneous ctx value node.required ↔
      Accepts space ignoreExtraneous ctx value node := by
  cases node
  case optional => exact accepts_optional.symm
  all_goals rfl

theorem checkUnion_eq_none_iff {members : List Node} :
    checkUnion space ignoreExtraneous ctx value members = none ↔
      ∃ member ∈ members, Accepts space ignoreExtraneous ctx value member := by
  induction members with
  | nil => simp [checkUnion]
  | cons member rest hi =>
    rw [checkUnion]
    split
    case h_1 ha => simp [Accepts, ha]
    case h_2 hn =>
      have hn : ¬Accepts space ignoreExtraneous ctx value member := hn
      simp [hi, hn]

theorem accepts_union {members : List Node} :
    Accepts space ignoreExtraneous ctx value (.union members) ↔
      ∃ member ∈ members, Accepts space ignoreExtraneous ctx value member := by
  rw [← checkUnion_eq_none_iff]
  simp only [Accepts, check]
  split <;> simp_all

theorem checkItems_eq_nil_iff {index : Nat} {items : List Json} {item : Node} :
    checkItems space ignoreExtraneous ctx index items item = [] ↔
      ∀ value ∈ items, Accepts space ignoreExtraneous ctx value item := by
  induction items generalizing index with
  | nil => simp [checkItems]
  | cons value rest hi => simp [checkItems, Accepts, hi]

theorem accepts_list {item : Node} :
    Accepts space ignoreExtraneous ctx value (.list item) ↔
      ∃ items, value = .array items ∧ ∀ part ∈ items, Accepts space ignoreExtraneous ctx part item := by
  cases value
  case array items => simp [Accepts, check, checkItems_eq_nil_iff]
  all_goals simp [Accepts, check, mismatch_ne_nil]

theorem checkSlots_eq_nil_iff {index : Nat} {items : List Json} {slots : List Node} :
    checkSlots space ignoreExtraneous ctx index items slots = [] ↔
      ∀ filled ∈ items.zip slots, Accepts space ignoreExtraneous ctx filled.fst filled.snd := by
  induction items generalizing index slots with
  | nil => simp [checkSlots]
  | cons value rest hi =>
    cases slots with
    | nil => simp [checkSlots]
    | cons slot others =>
      rw [checkSlots, List.append_eq_nil_iff, List.map_eq_nil_iff, hi, List.zip_cons_cons,
        List.forall_mem_cons]
      exact and_congr_left' accepts_required

theorem accepts_tuple {slots : List Node} :
    Accepts space ignoreExtraneous ctx value (.tuple slots) ↔
      ∃ items, value = .array items ∧ requiredSlots slots ≤ items.length ∧
        items.length ≤ slots.length ∧
        ∀ filled ∈ items.zip slots, Accepts space ignoreExtraneous ctx filled.fst filled.snd := by
  cases value
  case array items =>
    simp only [Accepts, check]
    split
    case isTrue  => simp; omega
    case isFalse h =>
      obtain ⟨h₁, h₂⟩ : requiredSlots slots ≤ items.length ∧ items.length ≤ slots.length := by omega
      simp [checkSlots_eq_nil_iff, h₁, h₂, Accepts]
  all_goals simp [Accepts, check, mismatch_ne_nil]

section Members

variable {key : String} {member : Node} {entries : List (String × Json)}
variable {rest : List (String × Node)}

theorem checkMembers_of_lookup (h : entries.lookup key = some value) :
    checkMembers space ignoreExtraneous ctx entries ((key, member) :: rest) =
      (check space ignoreExtraneous ctx none value member.required).map (·.under (.key key)) ++
        checkMembers space ignoreExtraneous ctx entries rest := by
  rw [checkMembers]
  split
  case h_1 hl =>
    cases h.symm.trans hl
    rfl
  case h_2 hl => cases h.symm.trans hl

theorem checkMembers_of_missing (h : entries.lookup key = none) :
    checkMembers space ignoreExtraneous ctx entries ((key, member) :: rest) =
      (if ctx.acceptsAbsence space.declarations member then []
        else [(Violation.missing member.text).error]).map (·.under (.key key)) ++
        checkMembers space ignoreExtraneous ctx entries rest := by
  rw [checkMembers]
  split
  case h_1 hl => cases h.symm.trans hl
  case h_2    => rfl

end Members

-- What has to hold of a struct member, by what is found under its key.
structure MemberAccepts (space : Typespace) (ignoreExtraneous : Bool) (ctx : Context)
    (entries : List (String × Json)) (member : String × Node) : Prop where
  present : ∀ value, entries.lookup member.fst = some value →
    Accepts space ignoreExtraneous ctx value member.snd
  absent  : entries.lookup member.fst = none → ctx.acceptsAbsence space.declarations member.snd

theorem checkMembers_eq_nil_iff {entries : List (String × Json)} {members : List (String × Node)} :
    checkMembers space ignoreExtraneous ctx entries members = [] ↔
      ∀ member ∈ members, MemberAccepts space ignoreExtraneous ctx entries member := by
  induction members with
  | nil => simp [checkMembers]
  | cons member rest hi =>
    obtain ⟨key, member⟩ := member
    rw [checkMembers, List.append_eq_nil_iff, List.map_eq_nil_iff, hi, List.forall_mem_cons]
    apply and_congr_left'
    split
    case h_1 value hl =>
      refine accepts_required.trans ⟨fun h => ⟨fun _ he => ?_, fun he => ?_⟩, fun h => h.present value hl⟩
      · cases hl.symm.trans he
        exact h
      · cases hl.symm.trans he
    case h_2 hl =>
      simp only [ite_eq_left_iff, List.cons_ne_nil, imp_false, Decidable.not_not]
      refine ⟨fun h => ⟨fun _ he => ?_, fun _ => h⟩, fun h => h.absent hl⟩
      cases hl.symm.trans he

theorem checkKeys_eq_nil_iff {entries : List (String × Json)} {members : List (String × Node)} :
    checkKeys ignoreExtraneous entries members = [] ↔
      (ignoreExtraneous ∨ ∀ key ∈ Members.names entries, key ∈ Members.names members) := by
  cases ignoreExtraneous <;> simp [checkKeys, extraneousKeys, List.filter_eq_nil_iff]

theorem accepts_struct {members : List (String × Node)} :
    Accepts space ignoreExtraneous ctx value (.struct members) ↔
      ∃ entries, value = .object entries ∧
        (∀ member ∈ members, MemberAccepts space ignoreExtraneous ctx entries member) ∧
        (ignoreExtraneous ∨ ∀ key ∈ Members.names entries, key ∈ Members.names members) := by
  cases value
  case object entries =>
    simp [Accepts, check, checkMembers_eq_nil_iff, checkKeys_eq_nil_iff]
  all_goals simp [Accepts, check, mismatch_ne_nil]

end Validation

end JsonShape
