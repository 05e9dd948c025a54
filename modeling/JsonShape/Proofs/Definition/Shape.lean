import JsonShape.Definition.Parser

namespace JsonShape

open Expression Definition

namespace Node

-- The first node is the second one, or stands somewhere inside of it.
inductive Part (part : Node) : Node → Prop
  | self     : Part part part
  | list     : (Part part item) → Part part (.list item)
  | tuple    : (slot ∈ slots) → (Part part slot) → Part part (.tuple slots)
  | union    : (member ∈ members) → (Part part member) → Part part (.union members)
  | optional : (Part part node) → Part part (.optional node)
  | struct   : (member ∈ members) → (Part part member.snd) → Part part (.struct members)

section Part

variable {part : Node}

theorem Part.trans {node outer : Node} (h : Part part node) (ho : Part node outer) : Part part outer := by
  induction ho with
  | self           => exact h
  | list _ hi      => exact .list hi
  | tuple hs _ hi  => exact .tuple hs hi
  | union hm _ hi  => exact .union hm hi
  | optional _ hi  => exact .optional hi
  | struct hm _ hi => exact .struct hm hi

@[simp]
theorem part_primitive_iff {keyword : Keyword} :
    Part part (.primitive keyword) ↔ part = .primitive keyword :=
  ⟨fun h => by cases h; rfl, fun h => h ▸ .self⟩

@[simp]
theorem part_literal_iff {l : Literal} : Part part (.literal l) ↔ part = .literal l :=
  ⟨fun h => by cases h; rfl, fun h => h ▸ .self⟩

@[simp]
theorem part_reference_iff {name : String} : Part part (.reference name) ↔ part = .reference name :=
  ⟨fun h => by cases h; rfl, fun h => h ▸ .self⟩

@[simp]
theorem part_list_iff {item : Node} :
    Part part (.list item) ↔ part = .list item ∨ Part part item := by
  constructor
  case mp =>
    intro h
    cases h with
    | self => exact .inl rfl
    | list h => exact .inr h
  case mpr =>
    rintro (rfl | h)
    · exact .self
    · exact .list h

@[simp]
theorem part_tuple_iff {slots : List Node} :
    Part part (.tuple slots) ↔ part = .tuple slots ∨ ∃ slot ∈ slots, Part part slot := by
  constructor
  case mp =>
    intro h
    cases h with
    | self => exact .inl rfl
    | tuple hs h => exact .inr ⟨_, hs, h⟩
  case mpr =>
    rintro (rfl | ⟨slot, hs, h⟩)
    · exact .self
    · exact .tuple hs h

@[simp]
theorem part_union_iff {members : List Node} :
    Part part (.union members) ↔ part = .union members ∨ ∃ member ∈ members, Part part member := by
  constructor
  case mp =>
    intro h
    cases h with
    | self => exact .inl rfl
    | union hm h => exact .inr ⟨_, hm, h⟩
  case mpr =>
    rintro (rfl | ⟨member, hm, h⟩)
    · exact .self
    · exact .union hm h

@[simp]
theorem part_optional_iff {inner : Node} :
    Part part (.optional inner) ↔ part = .optional inner ∨ Part part inner := by
  constructor
  case mp =>
    intro h
    cases h with
    | self => exact .inl rfl
    | optional h => exact .inr h
  case mpr =>
    rintro (rfl | h)
    · exact .self
    · exact .optional h

@[simp]
theorem part_struct_iff {members : List (String × Node)} :
    Part part (.struct members) ↔ part = .struct members ∨ ∃ member ∈ members, Part part member.snd := by
  constructor
  case mp =>
    intro h
    cases h with
    | self => exact .inl rfl
    | struct hm h => exact .inr ⟨_, hm, h⟩
  case mpr =>
    rintro (rfl | ⟨member, hm, h⟩)
    · exact .self
    · exact .struct hm h

theorem Part.required {node : Node} (ho : ¬part.isOptional) (h : Part part node) :
    Part part node.required := by
  cases node with
  | optional inner =>
    refine (part_optional_iff.mp h).resolve_left ?_
    rintro rfl
    exact ho rfl
  | _ => exact h

theorem part_of_part_required {node : Node} (h : Part part node.required) : Part part node := by
  cases node
  case optional => exact .optional h
  all_goals exact h

end Part

-- No struct in the node has two members of one name.
def MembersDistinct (node : Node) : Prop :=
  ∀ members, Part (.struct members) node → Members.Distinct members

theorem MembersDistinct.within {part node : Node} (h : node.MembersDistinct) (hp : Part part node) :
    part.MembersDistinct :=
  fun members hm => h members (hm.trans hp)

end Node

-- A string can be written as a literal if one kind of quote does not occur in it.
def Literal.IsWritable : Literal → Prop
  | string s => ¬('\'' ∈ s.toList ∧ '"' ∈ s.toList)
  | number _ | bool _ => True

namespace Node

-- The nodes of expressions that have no question mark behind them.
inductive Expressible (declared : String → Bool) : Node → Prop
  | primitive : Expressible declared (.primitive keyword)
  | literal   : l.IsWritable → Expressible declared (.literal l)
  | reference : declared name → Expressible declared (.reference name)
  | list      : (Expressible declared item) → Expressible declared (.list item)
  | union     : (2 ≤ members.length) → (∀ member ∈ members, Expressible declared member) →
      (∀ member ∈ members, ¬member.isLoose) → Expressible declared (.union members)

-- The nodes of definitions. A struct member is judged by what is there when it is there.
inductive WellFormed (declared : String → Bool) : Node → Prop
  | expression : (Expressible declared node) → WellFormed declared node
  | optional   : (Expressible declared node) → WellFormed declared (.optional node)
  | list       : (WellFormed declared item) → ¬item.isOptional → WellFormed declared (.list item)
  | tuple      : slots.length ≠ 1 → ¬requiredFollowsOptional slots →
      (∀ slot ∈ slots, WellFormed declared slot) → WellFormed declared (.tuple slots)
  | struct     : Members.Distinct members →
      (∀ member ∈ members, WellFormed declared member.snd.required) →
      (∀ member ∈ members, ¬member.snd.required.isOptional) →
      (∀ member ∈ members, dropEnd? member.fst.toList ['?'] ≠ none → member.snd.isOptional) →
      WellFormed declared (.struct members)

variable {declared : String → Bool} {node : Node}

theorem Expressible.not_optional (h : node.Expressible declared) : ¬node.isOptional := by
  cases h <;> simp [isOptional]

theorem required_of_not_optional (h : ¬node.isOptional) : node.required = node := by
  cases node <;> simp [required, isOptional] at *

theorem WellFormed.required (h : node.WellFormed declared) : node.required.WellFormed declared := by
  by_cases ho : node.isOptional
  case neg => exact (required_of_not_optional ho).symm ▸ h
  case pos =>
    cases h <;> simp [isOptional] at ho
    case expression h => exact absurd ho h.not_optional
    case optional h   => exact .expression h

theorem WellFormed.required_not_optional (h : node.WellFormed declared) :
    ¬node.required.isOptional := by
  cases node with
  | optional inner =>
    cases h with
    | expression h => cases h
    | optional h   => exact h.not_optional
  | _ => simp [Node.required, isOptional]

theorem WellFormed.of_tuple {slots : List Node} (h : (Node.tuple slots).WellFormed declared) :
    ¬requiredFollowsOptional slots ∧ ∀ slot ∈ slots, slot.WellFormed declared := by
  cases h
  case expression h => cases h
  case tuple hr h   => exact ⟨hr, h⟩

theorem WellFormed.of_union {members : List Node} (h : (Node.union members).WellFormed declared) :
    ∀ member ∈ members, member.Expressible declared := by
  cases h
  case expression h => cases h with | union _ h _ => exact h

theorem WellFormed.flat_of_union {members : List Node} (h : (Node.union members).WellFormed declared) :
    ∀ member ∈ members, ¬member.isLoose := by
  cases h
  case expression h => cases h with | union _ _ h => exact h

theorem WellFormed.of_optional {inner : Node} (h : (Node.optional inner).WellFormed declared) :
    inner.WellFormed declared := by
  cases h
  case expression h => cases h
  case optional h   => exact .expression h

theorem WellFormed.of_struct {members : List (String × Node)}
    (h : (Node.struct members).WellFormed declared) :
    Members.Distinct members ∧ ∀ member ∈ members, member.snd.required.WellFormed declared := by
  cases h
  case expression h    => cases h
  case struct hd h _ _ => exact ⟨hd, h⟩

theorem Expressible.not_part_struct {members : List (String × Node)} (h : node.Expressible declared) :
    ¬Part (.struct members) node := by
  induction h with
  | primitive | literal | reference => simp
  | list _ hi         => simpa using hi
  | union _ _ _ hi    => simpa using hi

theorem WellFormed.membersDistinct (h : node.WellFormed declared) : node.MembersDistinct := by
  intro members hp
  induction h with
  | expression h => exact absurd hp h.not_part_struct
  | optional h   => exact absurd ((part_optional_iff.mp hp).resolve_left (by simp)) h.not_part_struct
  | list _ _ hi  => exact hi ((part_list_iff.mp hp).resolve_left (by simp))
  | tuple _ _ _ hi =>
    obtain ⟨slot, hs, hp⟩ := (part_tuple_iff.mp hp).resolve_left (by simp)
    exact hi slot hs hp
  | struct hd _ _ _ hi =>
    rcases part_struct_iff.mp hp with he | ⟨member, hm, hp⟩
    case inl =>
      cases he
      exact hd
    case inr => exact hi member hm (hp.required (by simp [isOptional]))

-- The slots that must be filled are the ones in front of the first that need not be.
theorem filter_required_slots {slots : List Node} (h : ¬requiredFollowsOptional slots) :
    (slots.filter fun slot => ¬slot.isOptional) = slots.takeWhile fun slot => ¬slot.isOptional := by
  induction slots with
  | nil => rfl
  | cons slot rest hi =>
    by_cases ho : slot.isOptional
    case pos => simpa [requiredFollowsOptional, ho] using h
    case neg =>
      simp only [requiredFollowsOptional, List.dropWhile_cons, ho] at h
      simpa [ho] using hi h

end Node

end JsonShape
