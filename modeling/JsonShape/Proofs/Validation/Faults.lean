import JsonShape.Proofs.Validation.Acceptance
import JsonShape.Proofs.Validation.Parts

namespace JsonShape

-- What a path leads to in a value.
def Json.at? : Json → Path → Option Json
  | value, [] => some value
  | .object entries, .key name :: rest => (entries.lookup name).bind (at? · rest)
  | .array items, .index i :: rest => items[i]?.bind (at? · rest)
  | _, _ => none

-- One of the paths goes on where the other one ends.
def Path.Meets (path other : Path) : Prop :=
  path <+: other ∨ other <+: path

theorem Path.Meets.cons {path other : Path} (h : path.Meets other) (segment : Segment) :
    Path.Meets (segment :: path) (segment :: other) :=
  h.imp (List.prefix_cons_inj segment).mpr (List.prefix_cons_inj segment).mpr

namespace Json

variable {value part : Json} {rest : Path}

theorem at?_nil : value.at? [] = some value := by
  cases value <;> rfl

theorem at?_key {name : String} {entries : List (String × Json)} (h : entries.lookup name = some part) :
    (object entries).at? (.key name :: rest) = part.at? rest := by
  rw [at?, h, Option.bind_some]

theorem at?_index {i : Nat} {items : List Json} (h : items[i]? = some part) :
    (array items).at? (.index i :: rest) = part.at? rest := by
  rw [at?, h, Option.bind_some]

end Json

namespace Validation

variable {space : Typespace} {ignoreExtraneous : Bool} {ctx : Context} {e : ValidationError}

theorem exists_of_mem_checkSlots {index : Nat} {items : List Json} {slots : List Node}
    (h : e ∈ checkSlots space ignoreExtraneous ctx index items slots) :
    ∃ i value slot, items[i]? = some value ∧ slots[i]? = some slot ∧
      ∃ inner ∈ check space ignoreExtraneous ctx none value slot.required,
        e = inner.under (.index (index + i)) := by
  rw [checkSlots_eq_flatMap] at h
  obtain ⟨⟨filled, place⟩, hm, h⟩ := List.mem_flatMap.mp h
  obtain ⟨inner, hi, rfl⟩ := List.mem_map.mp h
  obtain ⟨hl, hf⟩ := List.mk_mem_zipIdx_iff_le_and_getElem?_sub.mp hm
  obtain ⟨hv, hs⟩ := List.getElem?_zip_eq_some.mp hf
  refine ⟨place - index, filled.fst, filled.snd, hv, hs, inner, hi, ?_⟩
  rw [Nat.add_sub_cancel' hl]

theorem exists_of_mem_checkMembers {entries : List (String × Json)} {members : List (String × Node)}
    (h : e ∈ checkMembers space ignoreExtraneous ctx entries members) :
    ∃ member ∈ members,
      (∃ value, entries.lookup member.fst = some value ∧
        ∃ inner ∈ check space ignoreExtraneous ctx none value member.snd.required,
          e = inner.under (.key member.fst)) ∨
      (entries.lookup member.fst = none ∧ ¬ctx.acceptsAbsence space.declarations member.snd) := by
  rw [checkMembers_eq_flatMap] at h
  obtain ⟨member, hm, h⟩ := List.mem_flatMap.mp h
  obtain ⟨inner, hi, rfl⟩ := List.mem_map.mp h
  refine ⟨member, hm, ?_⟩
  cases hl : entries.lookup member.fst with
  | some value =>
    rw [checkMember_of_lookup hl] at hi
    exact .inl ⟨value, rfl, inner, hi, rfl⟩
  | none =>
    rw [checkMember_of_missing hl] at hi
    refine .inr ⟨rfl, fun ha => ?_⟩
    rw [if_pos ha] at hi
    cases hi

end Validation

end JsonShape
