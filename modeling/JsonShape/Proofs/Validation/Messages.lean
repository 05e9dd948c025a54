import JsonShape.Model
import JsonShape.Proofs.Validation.Acceptance
import JsonShape.Proofs.Validation.Parts

namespace JsonShape

theorem append_ne_empty {first second : String} (h : second ≠ "") : first ++ second ≠ "" :=
  fun he => h (String.append_eq_empty_iff.mp he).right

-- The violations are written out up to the last words of their messages.
theorem Violation.message_ne_empty (v : Violation) : v.message ≠ "" := by
  cases v with
  | notAssignable value target =>
    change _ ++ "." ≠ ""
    exact append_ne_empty (by simp)
  | notAssignableToAny value target reasons =>
    change _ ++ ":\n" ++ _ ≠ ""
    exact fun h => append_ne_empty (by simp) (String.append_eq_empty_iff.mp h).left
  | tupleLength found required most =>
    change _ ++ "." ≠ ""
    exact append_ne_empty (by simp)
  | missing type =>
    change _ ++ " was missing." ≠ ""
    exact append_ne_empty (by simp)
  | unexpected keys =>
    change (if _ then _ ++ " was unexpected." else _ ++ " were unexpected.") ≠ ""
    split <;> exact append_ne_empty (by simp)
  | unknownType name =>
    change _ ++ "'." ≠ ""
    exact append_ne_empty (by simp)

namespace ValidationError

-- The error is a violation, wherever it is.
def IsViolation (e : ValidationError) : Prop :=
  ∃ v : Violation, e.message = v.message

variable {e : ValidationError}

theorem isViolation_error (v : Violation) : v.error.IsViolation :=
  ⟨v, rfl⟩

theorem IsViolation.under (h : e.IsViolation) (segment : Segment) : (e.under segment).IsViolation :=
  h

theorem IsViolation.message_ne_empty (h : e.IsViolation) : e.message ≠ "" := by
  obtain ⟨v, hv⟩ := h
  exact hv ▸ v.message_ne_empty

-- An error ends with its message, whatever is said of its path.
theorem text_ne_empty (h : e.message ≠ "") : e.text ≠ "" := by
  rw [text]
  split
  case h_1 => exact h
  case h_2 => exact append_ne_empty h
  case h_3 => exact append_ne_empty h

end ValidationError

namespace Validation

variable {space : Typespace} {ignoreExtraneous : Bool} {ctx : Context} {label : Option String} {value : Json}

theorem IsWhole.isViolation {errors : List ValidationError} (h : IsWhole errors) :
    ∀ e ∈ errors, e.IsViolation := by
  cases h with
  | nothing => simp
  | error v => simpa using ValidationError.isViolation_error v

-- Errors stay what they are below the places of their parts.
theorem parts_isViolation {α : Type} {parts : List α} {segment : α → Segment}
    {found : α → List ValidationError} (h : ∀ part ∈ parts, ∀ e ∈ found part, e.IsViolation) :
    ∀ e ∈ parts.flatMap fun part => (found part).map (·.under (segment part)), e.IsViolation := by
  simp only [List.forall_mem_flatMap, List.forall_mem_map]
  exact fun part hm e he => (h part hm e he).under _

theorem Findings.isViolation {node : Node} {errors : List ValidationError}
    (h : Findings space value node errors) : ∀ e ∈ errors, e.IsViolation := by
  induction h with
  | whole h          => exact h.isViolation
  | reference _ _ hi => exact hi
  | optional _ hi    => exact hi
  | items _ hi       => exact parts_isViolation hi
  | slots _ hi       => exact parts_isViolation hi
  | @members entries _ _ _ _ hn hr hi =>
    refine List.forall_mem_append.mpr ⟨parts_isViolation fun member hm => ?_, hr.isViolation⟩
    cases hl : entries.lookup member.fst with
    | some part => exact hi member hm part hl
    | none      => exact (hn member hm hl).isViolation

theorem check_isViolation (node : Node) :
    ∀ e ∈ check space ignoreExtraneous ctx label value node, e.IsViolation :=
  check_findings.isViolation

end Validation

namespace Report

variable {errors : List ValidationError}

theorem text_eq_empty_iff (h : ∀ e ∈ errors, e.message ≠ "") : text errors = "" ↔ errors = [] := by
  match errors with
  | [] => simp [text]
  | [e] => simpa [text] using ValidationError.text_ne_empty (h e (.head _))
  | e :: other :: rest =>
    refine iff_of_false (fun he => ?_) (by simp)
    change "Encountered errors at the following paths:" ++ _ = "" at he
    exact absurd (String.append_eq_empty_iff.mp he).left (by simp)

end Report

end JsonShape
