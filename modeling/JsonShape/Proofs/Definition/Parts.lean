import Mathlib
import JsonShape.Proofs.Text.Trim
import JsonShape.Definition.Parser

namespace JsonShape

namespace Definition

section Key

variable {key : String}

theorem dropEnd?_mark_eq_some_iff {name : String} :
    dropEnd? key.toList ['?'] = some name.toList ↔ key = name ++ "?" := by
  constructor
  case mp =>
    intro h
    rw [← String.toList_inj, String.toList_append, eq_append_of_dropEnd? h]
    rfl
  case mpr =>
    rintro rfl
    rw [String.toList_append]
    exact dropEnd?_append

theorem dropEnd?_mark_eq_none_iff : dropEnd? key.toList ['?'] = none ↔ ∀ name, key ≠ name ++ "?" := by
  simp only [ne_eq, ← dropEnd?_mark_eq_some_iff]
  constructor
  case mp => simp_all
  case mpr =>
    intro h
    cases hk : dropEnd? key.toList ['?'] with
    | none      => rfl
    | some name => exact absurd (by rw [hk, String.toList_ofList]) (h (.ofList name))

end Key

-- The struct member of an entry and the node of its value.
def memberOf (part : (String × Json) × Node) : String × Node :=
  field part.fst.fst part.snd

-- The definition is parsed to the node. A part is an item with its slot, or an entry with the node of its value.
inductive Parses (declared : String → Bool) : Json → Node → Prop
  | null   : Parses declared .null (.primitive .null)
  | bool   : Parses declared (.bool b) (.literal (.bool b))
  | number : Parses declared (.number n) (.literal (.number n.value))
  | string : Expression.parse declared text = .ok node → Parses declared (.string text) node
  | list   : (Parses declared item node) → ¬node.isOptional → Parses declared (.array [item]) (.list node)
  | tuple {parts : List (Json × Node)} : parts.length ≠ 1 → ¬requiredFollowsOptional (parts.map Prod.snd) →
      (∀ part ∈ parts, Parses declared part.fst part.snd) →
      Parses declared (.array (parts.map Prod.fst)) (.tuple (parts.map Prod.snd))
  | struct {parts : List ((String × Json) × Node)} :
      Members.Distinct (parts.map memberOf) → (∀ part ∈ parts, Parses declared part.fst.snd part.snd) →
      Parses declared (.object (parts.map Prod.fst)) (.struct (parts.map memberOf))

section Parser

variable {declared : String → Bool} {definition : Json} {node : Node}

theorem parseSlots_of_parts {parts : List (Json × Node)}
    (h : ∀ part ∈ parts, parse declared part.fst = .ok part.snd) :
    parseSlots declared (parts.map Prod.fst) = .ok (parts.map Prod.snd) := by
  induction parts with
  | nil => rw [List.map_nil, parseSlots, List.map_nil]
  | cons part rest hi =>
    obtain ⟨hp, hr⟩ := List.forall_mem_cons.mp h
    rw [List.map_cons, parseSlots, hp, hi hr, List.map_cons]

theorem parseFields_of_parts {used : List String} {parts : List ((String × Json) × Node)}
    (h : ∀ part ∈ parts, parse declared part.fst.snd = .ok part.snd)
    (hd : Members.Distinct (parts.map memberOf))
    (hu : ∀ name ∈ Members.names (parts.map memberOf), name ∉ used) :
    parseFields declared used (parts.map Prod.fst) = .ok (parts.map memberOf) := by
  induction parts generalizing used with
  | nil => rw [List.map_nil, parseFields, List.map_nil]
  | cons part rest hi =>
    obtain ⟨hp, hr⟩ := List.forall_mem_cons.mp h
    obtain ⟨hn, hd⟩ := List.nodup_cons.mp hd
    obtain ⟨hup, hur⟩ := List.forall_mem_cons.mp hu
    have hu : ∀ name ∈ Members.names (rest.map memberOf), name ∉ (memberOf part).fst :: used := by
      intro name hm hc
      rcases List.mem_cons.mp hc with rfl | hc
      · exact hn hm
      · exact hur name hm hc
    have hf := hi hr hd hu
    rw [memberOf] at hup hf
    rw [List.map_cons, parseFields, hp]
    simp only [if_neg hup, hf, List.map_cons, memberOf]

theorem parse_of_parses (h : Parses declared definition node) : parse declared definition = .ok node := by
  induction h with
  | null | bool | number => rw [parse]
  | string h => rw [parse, h]
  | list _ ho hi =>
    rw [parse, parseSlots, hi, parseSlots]
    exact if_neg ho
  | @tuple parts hl hr _ hi =>
    rw [parse, parseSlots_of_parts hi]
    match parts with
    | []         => exact if_neg hr
    | [_]        => exact absurd rfl hl
    | _ :: _ :: _ => exact if_neg hr
  | struct hd _ hi =>
    rw [parse, parseFields_of_parts hi hd fun _ _ => List.not_mem_nil]
    rfl

mutual

theorem parses_of_parse {definition : Json} {node : Node} (h : parse declared definition = .ok node) :
    Parses declared definition node := by
  match definition with
  | .null =>
    rw [parse] at h
    cases h
    exact .null
  | .bool _ =>
    rw [parse] at h
    cases h
    exact .bool
  | .number _ =>
    rw [parse] at h
    cases h
    exact .number
  | .string _ =>
    rw [parse] at h
    exact .string h
  | .array items =>
    rw [parse] at h
    split at h
    case h_1 => cases h
    case h_2 hs =>
      split at h <;> cases h
      obtain ⟨parts, rfl, hm, hp⟩ := parts_of_parseSlots hs
      obtain ⟨part, rfl, rfl⟩ := List.map_eq_singleton_iff.mp hm
      exact .list (hp part (.head _)) ‹_›
    case h_3 hn hs =>
      split at h <;> cases h
      obtain ⟨parts, rfl, rfl, hp⟩ := parts_of_parseSlots hs
      refine .tuple (fun hl => ?_) ‹_› hp
      obtain ⟨part, rfl⟩ := List.length_eq_one_iff.mp hl
      exact hn part.snd rfl
  | .object fields =>
    rw [parse] at h
    cases hf : parseFields declared [] fields <;> rw [hf] at h <;> cases h
    obtain ⟨parts, rfl, rfl, hp, hd, -⟩ := parts_of_parseFields hf
    exact .struct hd hp

theorem parts_of_parseSlots {items : List Json} {slots : List Node} (h : parseSlots declared items = .ok slots) :
    ∃ parts : List (Json × Node), parts.map Prod.fst = items ∧ parts.map Prod.snd = slots ∧
      ∀ part ∈ parts, Parses declared part.fst part.snd := by
  match items with
  | [] =>
    rw [parseSlots] at h
    cases h
    exact ⟨[], rfl, rfl, by simp⟩
  | item :: rest =>
    rw [parseSlots] at h
    split at h
    case h_1 => cases h
    case h_2 slot hp =>
      split at h
      case h_1 => cases h
      case h_2 hr =>
        cases h
        obtain ⟨parts, rfl, rfl, hs⟩ := parts_of_parseSlots hr
        exact ⟨(item, slot) :: parts, rfl, rfl, List.forall_mem_cons.mpr ⟨parses_of_parse hp, hs⟩⟩

theorem parts_of_parseFields {used : List String} {fields : List (String × Json)}
    {members : List (String × Node)} (h : parseFields declared used fields = .ok members) :
    ∃ parts : List ((String × Json) × Node), parts.map Prod.fst = fields ∧
      parts.map memberOf = members ∧ (∀ part ∈ parts, Parses declared part.fst.snd part.snd) ∧
      Members.Distinct members ∧ ∀ name ∈ Members.names members, name ∉ used := by
  match fields with
  | [] =>
    rw [parseFields] at h
    cases h
    exact ⟨[], rfl, rfl, by simp, .nil, by simp [Members.names]⟩
  | (key, value) :: rest =>
    rw [parseFields] at h
    split at h
    case h_1 => cases h
    case h_2 node hp =>
      simp only at h
      split at h
      case isTrue => cases h
      case isFalse hu =>
        split at h
        case h_1 => cases h
        case h_2 hr =>
          cases h
          obtain ⟨parts, rfl, rfl, hs, hd, hn⟩ := parts_of_parseFields hr
          refine ⟨((key, value), node) :: parts, rfl, rfl,
            List.forall_mem_cons.mpr ⟨parses_of_parse hp, hs⟩, ?_, ?_⟩
          · exact List.nodup_cons.mpr ⟨fun hm => hn _ hm (.head _), hd⟩
          · exact List.forall_mem_cons.mpr ⟨hu, fun name hm hc => hn name hm (.tail _ hc)⟩

end

end Parser

end Definition

end JsonShape
