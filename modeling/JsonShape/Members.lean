
namespace JsonShape

abbrev Members (α : Type) := List (String × α)

namespace Members

variable {α β : Type}

def names (members : Members α) : List String :=
  members.map Prod.fst

def Distinct (members : Members α) : Prop :=
  members.names.Nodup

-- Replaces the member of this name where it stands, or adds one at the end.
def set (name : String) (value : α) : Members α → Members α
  | [] => [(name, value)]
  | (other, old) :: rest =>
    if other = name then (name, value) :: rest else (other, old) :: set name value rest

def ofList (entries : List (String × α)) : Members α :=
  entries.foldl (fun members (name, value) => set name value members) []

theorem lookup_cons {name other : String} {value : α} {rest : Members α} :
    List.lookup name ((other, value) :: rest) =
      if other = name then some value else rest.lookup name := by
  by_cases h : other = name
  · simp [h]
  · have h' : (name == other) = false := by simpa using fun e => h e.symm
    simp [List.lookup_cons, h, h']

theorem lookup_eq_none_iff {members : Members α} {name : String} :
    members.lookup name = none ↔ name ∉ members.names := by
  induction members with
  | nil => simp [names]
  | cons m rest hi =>
    obtain ⟨other, value⟩ := m
    rw [lookup_cons]
    split
    · next h => simp [names, h]
    · next h =>
      rw [hi]
      simp only [names, List.map_cons, List.mem_cons, not_or]
      exact ⟨fun hn => ⟨fun e => h e.symm, hn⟩, And.right⟩

theorem mem_of_lookup {members : Members α} {name : String} {value : α}
    (h : members.lookup name = some value) : (name, value) ∈ members := by
  induction members with
  | nil => cases h
  | cons m rest hi =>
    obtain ⟨other, old⟩ := m
    rw [lookup_cons] at h
    split at h
    · simp_all
    · exact .tail _ (hi h)

theorem sizeOf_lt_of_lookup [SizeOf α] {members : Members α} {name : String} {value : α}
    (h : members.lookup name = some value) : sizeOf value < sizeOf members := by
  have := List.sizeOf_lt_of_mem (mem_of_lookup h)
  simp only [Prod.mk.sizeOf_spec] at this
  omega

theorem lookup_set_self {members : Members α} {name : String} {value : α} :
    (set name value members).lookup name = some value := by
  induction members with
  | nil => simp [set]
  | cons m rest hi =>
    obtain ⟨other, old⟩ := m
    simp only [set]
    split
    · simp
    · next h => simp [lookup_cons, h, hi]

theorem lookup_set_of_ne {members : Members α} {name other : String} {value : α} (h : name ≠ other) :
    (set name value members).lookup other = members.lookup other := by
  induction members with
  | nil => simp [set, lookup_cons, h]
  | cons m rest hi =>
    obtain ⟨first, old⟩ := m
    simp only [set]
    split
    · next e => simp [lookup_cons, h, e]
    · simp only [lookup_cons, hi]

theorem names_set {members : Members α} {name : String} {value : α} :
    (set name value members).names =
      if name ∈ members.names then members.names else members.names ++ [name] := by
  induction members with
  | nil => simp [set, names]
  | cons m rest hi =>
    obtain ⟨other, old⟩ := m
    simp only [names] at hi
    by_cases h : other = name
    · simp [set, names, h]
    · simp only [set, h, names, List.map_cons, if_false, List.mem_cons, hi]
      have h' : name ≠ other := fun e => h e.symm
      by_cases hm : name ∈ rest.map Prod.fst <;> simp [hm, h']

theorem Distinct.set {members : Members α} (h : members.Distinct) (name : String) (value : α) :
    (set name value members).Distinct := by
  simp only [Distinct, names_set] at h ⊢
  split
  · exact h
  case isFalse hn =>
    refine List.nodup_append.mpr ⟨h, by simp, fun a ha b hb e => ?_⟩
    simp_all

theorem distinct_ofList (entries : List (String × α)) : (ofList entries).Distinct := by
  suffices ∀ members : Members α, members.Distinct →
      (entries.foldl (fun members (name, value) => Members.set name value members) members).Distinct from
    this [] .nil
  induction entries with
  | nil => exact fun _ h => h
  | cons e rest hi => exact fun _ h => hi _ (h.set _ _)

theorem set_of_not_mem {members : Members α} {name : String} {value : α} (h : name ∉ members.names) :
    set name value members = members ++ [(name, value)] := by
  induction members with
  | nil => rfl
  | cons member rest hi =>
    obtain ⟨hn, hr⟩ := not_or.mp (mt List.mem_cons.mpr h)
    rw [set, if_neg (Ne.symm hn), hi hr, List.cons_append]

theorem ofList_of_distinct {entries : Members α} (h : entries.Distinct) : ofList entries = entries := by
  suffices ∀ members : Members α, (members ++ entries).Distinct →
      entries.foldl (fun members (name, value) => set name value members) members = members ++ entries from
    this [] h
  induction entries with
  | nil => exact fun members _ => (List.append_nil members).symm
  | cons entry rest hi =>
    obtain ⟨name, value⟩ := entry
    intro members hd
    have hn : name ∉ members.names := by
      simp only [Distinct, names, List.map_append, List.map_cons, List.nodup_append] at hd
      exact fun hm => hd.right.right _ hm _ (.head _) rfl
    have hr := hi (List.nodup_cons.mp h).right (members ++ [(name, value)])
    rw [List.append_assoc, List.singleton_append] at hr
    simp only [List.foldl_cons, set_of_not_mem hn]
    exact hr hd

end Members

end JsonShape
