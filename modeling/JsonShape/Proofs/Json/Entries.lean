import Mathlib
import JsonShape.Json.Basic

namespace JsonShape

namespace Members

-- The members have the same names in the same order, with related values.
inductive Related {α β : Type} (r : α → β → Prop) : Members α → Members β → Prop
  | nil  : Related r [] []
  | cons : r value other → Related r rest others → Related r ((name, value) :: rest) ((name, other) :: others)

variable {α β : Type}

section Lookup

variable {members others : Members α} {name : String} {value : α}

theorem lookup_eq_some_iff (h : members.Distinct) :
    members.lookup name = some value ↔ (name, value) ∈ members := by
  refine ⟨mem_of_lookup, fun hm => ?_⟩
  induction members with
  | nil => cases hm
  | cons member rest hi =>
    obtain ⟨other, old⟩ := member
    obtain ⟨hn, hd⟩ := List.nodup_cons.mp h
    rw [lookup_cons]
    rcases List.mem_cons.mp hm with he | hm
    case inl =>
      cases he
      exact if_pos rfl
    case inr =>
      have ho : other ≠ name := by
        rintro rfl
        exact hn (List.mem_map.mpr ⟨_, hm, rfl⟩)
      rw [if_neg ho]
      exact hi hd hm

theorem lookup_perm (hd : members.Distinct) (h : members.Perm others) (name : String) :
    members.lookup name = others.lookup name := by
  have ho : others.Distinct := (h.map Prod.fst).nodup_iff.mp hd
  refine Option.ext fun value => ?_
  rw [lookup_eq_some_iff hd, lookup_eq_some_iff ho, h.mem_iff]

theorem lookup_filter {keep : String → Bool} (h : keep name) :
    List.lookup name (members.filter fun member => keep member.fst) = members.lookup name := by
  induction members with
  | nil => rfl
  | cons member rest hi =>
    obtain ⟨other, old⟩ := member
    rw [List.filter_cons]
    split
    case isTrue => rw [lookup_cons, lookup_cons, hi]
    case isFalse hk =>
      have ho : other ≠ name := by
        rintro rfl
        exact hk h
      rw [lookup_cons, if_neg ho, hi]

theorem lookup_map {f : String × α → β} :
    List.lookup name (members.map fun member => (member.fst, f member)) =
      (members.lookup name).map fun value => f (name, value) := by
  induction members with
  | nil => rfl
  | cons member rest hi =>
    obtain ⟨other, old⟩ := member
    rw [List.map_cons, lookup_cons, lookup_cons, hi]
    split
    case isTrue he =>
      cases he
      rfl
    case isFalse => rfl

end Lookup

namespace Related

variable {r : α → β → Prop} {members : Members α} {others : Members β}

theorem names_eq (h : Related r members others) : members.names = others.names := by
  induction h with
  | nil => rfl
  | cons _ _ hi => exact congrArg _ hi

theorem lookup (h : Related r members others) (name : String) :
    Option.Rel r (members.lookup name) (others.lookup name) := by
  induction h with
  | nil => exact .none
  | cons hr _ hi =>
    rw [lookup_cons, lookup_cons]
    split
    case isTrue  => exact .some hr
    case isFalse => exact hi

theorem of_map {f : String × α → β} (h : ∀ member ∈ members, r member.snd (f member)) :
    Related r members (members.map fun member => (member.fst, f member)) := by
  induction members with
  | nil => exact .nil
  | cons member rest hi =>
    obtain ⟨hm, hr⟩ := List.forall_mem_cons.mp h
    exact .cons hm (hi hr)

end Related

end Members

end JsonShape
