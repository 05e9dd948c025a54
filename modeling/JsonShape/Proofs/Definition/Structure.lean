import Mathlib
import JsonShape.Proofs.Definition.WellFormed

namespace JsonShape

open Definition

-- What stands right inside of a node is what may stand there.
def Node.IsProper : Node → Prop
  | list item      => ¬item.isOptional
  | optional inner => ¬inner.isOptional
  | union members  => 2 ≤ members.length ∧ ∀ member ∈ members, ¬member.isLoose
  | tuple slots    => slots.length ≠ 1 ∧ ∃ required optional, slots = required ++ optional ∧
      (∀ slot ∈ required, ¬slot.isOptional) ∧ ∀ slot ∈ optional, slot.isOptional
  | struct members => Members.Distinct members ∧
      ∀ member ∈ members, (∃ name, member.fst = name ++ "?") → member.snd.isOptional
  | primitive _ | literal _ | reference _ => True

-- The first definition is the second one, or stands somewhere inside of it.
inductive Json.Within (inner : Json) : Json → Prop
  | self  : Within inner inner
  | item  : (item ∈ items) → (Within inner item) → Within inner (.array items)
  | entry : (entry ∈ entries) → (Within inner entry.snd) → Within inner (.object entries)

-- A member is named by its key, less one question mark at the end.
def Definition.IsNameOf (key name : String) : Prop :=
  key = name ++ "?" ∨ key = name ∧ ∀ other, key ≠ other ++ "?"

namespace Node

variable {declared : String → Bool} {part node item : Node}

theorem WellFormed.of_list (h : (Node.list item).WellFormed declared) :
    item.WellFormed declared ∧ ¬item.isOptional := by
  cases h
  case expression h => cases h with | list h => exact ⟨.expression h, h.not_optional⟩
  case list h ho    => exact ⟨h, ho⟩

-- The slots up to the first that may be missing are required, and the others are not.
theorem exists_required_append_optional {slots : List Node} (h : ¬requiredFollowsOptional slots) :
    ∃ required optional, slots = required ++ optional ∧
      (∀ slot ∈ required, ¬slot.isOptional) ∧ ∀ slot ∈ optional, slot.isOptional := by
  refine ⟨slots.takeWhile fun slot => ¬slot.isOptional, slots.dropWhile fun slot => ¬slot.isOptional,
    List.takeWhile_append_dropWhile.symm, fun slot hs => ?_, ?_⟩
  · simpa using List.mem_takeWhile_imp hs
  · simpa [requiredFollowsOptional] using h

theorem WellFormed.isProper (h : node.WellFormed declared) : node.IsProper := by
  cases h with
  | expression h =>
    cases h with
    | primitive | literal | reference => trivial
    | list h       => exact h.not_optional
    | union hl _ h => exact ⟨hl, h⟩
  | optional h   => exact h.not_optional
  | list _ h     => exact h
  | tuple hl h _ => exact ⟨hl, exists_required_append_optional h⟩
  | struct hd _ _ hn =>
    refine ⟨hd, fun member hm hq => hn member hm ?_⟩
    rw [ne_eq, dropEnd?_mark_eq_none_iff]
    push Not
    exact hq

-- What is there, when something is there, is well-formed and not optional again. An optional member of a
-- struct need not be well-formed by itself, since its node need not be one of an expression.
structure WellPlaced (declared : String → Bool) (node : Node) : Prop where
  wellFormed  : node.required.WellFormed declared
  notOptional : ¬node.required.isOptional

theorem WellFormed.wellPlaced (h : node.WellFormed declared) : node.WellPlaced declared where
  wellFormed  := h.required
  notOptional := h.required_not_optional

theorem WellPlaced.of_part (h : node.WellPlaced declared) (hp : Part part node) : part.WellPlaced declared := by
  induction hp with
  | self          => exact h
  | list _ hi     => exact hi h.wellFormed.of_list.left.wellPlaced
  | tuple hs _ hi => exact hi (h.wellFormed.of_tuple.right _ hs).wellPlaced
  | union hm _ hi => exact hi (WellFormed.expression (h.wellFormed.of_union _ hm)).wellPlaced
  | optional _ hi => exact hi h.wellFormed.wellPlaced
  | struct hm _ hi =>
    cases h.wellFormed with
    | expression h    => cases h
    | struct _ h ho _ => exact hi ⟨h _ hm, ho _ hm⟩

theorem WellPlaced.isProper (h : node.WellPlaced declared) : node.IsProper := by
  cases node with
  | optional => exact h.notOptional
  | _        => exact h.wellFormed.isProper

end Node

namespace Definition

variable {declared : String → Bool} {definition inner : Json} {node : Node} {key : String}

theorem isNameOf_field : IsNameOf key (field key node).fst := by
  cases hk : dropEnd? key.toList ['?'] with
  | none      => simpa [field, hk] using .inr ⟨rfl, dropEnd?_mark_eq_none_iff.mp hk⟩
  | some name =>
    refine .inl (dropEnd?_mark_eq_some_iff.mp ?_)
    simp [field, hk]

-- The question mark of a key adds nothing to its node but an optional around it.
theorem part_field : Node.Part node (field key node).snd := by
  simp only [field]
  split
  case h_2 => exact .self
  case h_1 =>
    split
    case isTrue  => exact .self
    case isFalse => exact .optional .self

theorem Parses.exists_part_of_item {items : List Json} {item : Json} (h : Parses declared (.array items) node)
    (hm : item ∈ items) : ∃ part, Parses declared item part ∧ Node.Part part node := by
  cases h with
  | list h _ =>
    cases List.mem_singleton.mp hm
    exact ⟨_, h, .list .self⟩
  | tuple _ _ h =>
    obtain ⟨part, hp, rfl⟩ := List.mem_map.mp hm
    exact ⟨part.snd, h part hp, .tuple (List.mem_map_of_mem hp) .self⟩

theorem Parses.exists_part_of_entry {fields : List (String × Json)} {entry : String × Json}
    (h : Parses declared (.object fields) node) (hm : entry ∈ fields) :
    ∃ part, Parses declared entry.snd part ∧ Node.Part part node := by
  cases h with
  | struct _ h =>
    obtain ⟨part, hp, rfl⟩ := List.mem_map.mp hm
    exact ⟨part.snd, h part hp, .struct (List.mem_map_of_mem hp) part_field⟩

-- What stands inside of a definition is a definition of its own, and its node stands inside of the node.
theorem Parses.exists_part_of_within (h : Parses declared definition node) (hw : inner.Within definition) :
    ∃ part, Parses declared inner part ∧ Node.Part part node := by
  induction hw generalizing node with
  | self => exact ⟨node, h, .self⟩
  | item hm _ hi =>
    obtain ⟨slot, hs, hn⟩ := h.exists_part_of_item hm
    obtain ⟨part, hp, hs⟩ := hi hs
    exact ⟨part, hp, hs.trans hn⟩
  | entry hm _ hi =>
    obtain ⟨value, hv, hn⟩ := h.exists_part_of_entry hm
    obtain ⟨part, hp, hv⟩ := hi hv
    exact ⟨part, hp, hv.trans hn⟩

-- The struct of an object has one member for each key, in the order of the keys.
theorem Parses.exists_members {fields : List (String × Json)} (h : Parses declared (.object fields) node) :
    ∃ members, node = .struct members ∧ List.Forall₂ IsNameOf (fields.map Prod.fst) (members.map Prod.fst) := by
  cases h with
  | struct hd hp =>
    refine ⟨_, rfl, ?_⟩
    rw [List.map_map, List.map_map, List.forall₂_map_left_iff, List.forall₂_map_right_iff, List.forall₂_same]
    exact fun part _ => isNameOf_field

-- All parts of a parsed node are proper, and each object of the definition, however deep it stands, gives a
-- struct with its members.
theorem parse_isProper (h : parse declared definition = .ok node) :
    (∀ part, Node.Part part node → part.IsProper) ∧
    ∀ fields, Json.Within (.object fields) definition →
      ∃ members, parse declared (.object fields) = .ok (.struct members) ∧
        Node.Part (.struct members) node ∧
        List.Forall₂ IsNameOf (fields.map Prod.fst) (members.map Prod.fst) := by
  have hp := (wellFormed_of_parse h).wellPlaced
  refine ⟨fun part hn => (hp.of_part hn).isProper, fun fields hw => ?_⟩
  obtain ⟨part, hp, hn⟩ := (parses_of_parse h).exists_part_of_within hw
  obtain ⟨members, rfl, hf⟩ := hp.exists_members
  exact ⟨members, parse_of_parses hp, hn, hf⟩

-- A key with two question marks, a union in parentheses, and an object inside of another one with an
-- optional member and an optional slot.
theorem parse_isProper_nested :
    ∃ node members others,
      parse ["user"].contains
        (.object [("a??", .string "user|(null|'x')"),
          ("b", .object [("c?", .array [.string "user"]), ("d", .array [.string "string", .string "null?"])])]) =
        .ok node ∧
      (∀ part, Node.Part part node → part.IsProper) ∧ node = .struct members ∧
      List.Forall₂ IsNameOf ["a??", "b"] (members.map Prod.fst) ∧
      Node.Part (.struct others) node ∧ List.Forall₂ IsNameOf ["c?", "d"] (others.map Prod.fst) := by
  let fields : List (String × Json) :=
    [("c?", .array [.string "user"]), ("d", .array [.string "string", .string "null?"])]
  have hp : parse ["user"].contains (.object [("a??", .string "user|(null|'x')"), ("b", .object fields)]) =
      .ok (.struct
        [("a?", .optional (.union [.reference "user", .primitive .null, .literal (.string "x")])),
          ("b", .struct [("c", .optional (.list (.reference "user"))),
            ("d", .tuple [.primitive .string, .optional (.primitive .null)])])]) := by cbv
  obtain ⟨ha, ho⟩ := parse_isProper hp
  obtain ⟨members, hm, -, hn⟩ := ho _ .self
  obtain ⟨others, -, hi, hf⟩ := ho fields (.entry (.tail _ (.head _)) .self)
  cases hp.symm.trans hm
  exact ⟨_, _, others, hp, ha, rfl, hn, hi, hf⟩

end Definition

end JsonShape
