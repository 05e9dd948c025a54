import Mathlib
import JsonShape.Proofs.Definition.Grammar
import JsonShape.Proofs.Definition.Parts

namespace JsonShape

open Expression Definition

namespace Expression

variable {declared : String → Bool} {node : Node}

-- The members that a node gives to a union are flat, and there is at least one.
theorem alternatives_ne_nil (h : node.Expressible declared) : alternatives node ≠ [] := by
  cases h
  case union hl _ _ => exact List.ne_nil_of_length_pos (Nat.lt_of_lt_of_le Nat.two_pos hl)
  all_goals simp [alternatives]

theorem expressible_of_mem_alternatives {member : Node} (h : node.Expressible declared)
    (hm : member ∈ alternatives node) : member.Expressible declared ∧ ¬member.isLoose := by
  cases h
  case union _ he hn => exact ⟨he _ hm, hn _ hm⟩
  all_goals
    simp only [alternatives, List.mem_singleton] at hm
    subst hm
    refine ⟨?_, by simp [Node.isLoose]⟩
  · exact .primitive
  · exact .literal ‹_›
  · exact .reference ‹_›
  · exact .list ‹_›

theorem length_le_length_flatMap_alternatives {nodes : List Node}
    (h : ∀ node ∈ nodes, node.Expressible declared) :
    nodes.length ≤ (nodes.flatMap alternatives).length := by
  induction nodes with
  | nil => simp
  | cons node rest hi =>
    have h₁ := List.length_pos_iff.mpr (alternatives_ne_nil (h node List.mem_cons_self))
    have h₂ := hi fun n hn => h n (.tail _ hn)
    simp only [List.flatMap_cons, List.length_append, List.length_cons]
    omega

theorem expressible_union {nodes : List Node} (hl : 2 ≤ nodes.length)
    (h : ∀ node ∈ nodes, node.Expressible declared) :
    (Node.union (nodes.flatMap alternatives)).Expressible declared := by
  have hs : ∀ member ∈ nodes.flatMap alternatives, member.Expressible declared ∧ ¬member.isLoose := by
    intro member hm
    obtain ⟨node, hn, hm⟩ := List.mem_flatMap.mp hm
    exact expressible_of_mem_alternatives (h node hn) hm
  exact .union (Nat.le_trans hl (length_le_length_flatMap_alternatives h))
    (fun _ hm => (hs _ hm).left) (fun _ hm => (hs _ hm).right)

-- Only the node of a whole definition may be optional.
theorem wellFormed_of_derives {phrase : Phrase} {text : List Char}
    (h : Derives declared phrase text node) :
    node.WellFormed declared ∧ (phrase ≠ .definition → node.Expressible declared) := by
  have of_expressible {phrase : Phrase} {node : Node} (h : node.Expressible declared) :
      node.WellFormed declared ∧ (phrase ≠ .definition → node.Expressible declared) :=
    ⟨.expression h, fun _ => h⟩
  induction h with
  | keyword => exact of_expressible .primitive
  | @quoted quote body hq hb =>
    refine of_expressible (.literal ?_)
    rw [Literal.IsWritable, String.toList_ofList]
    rintro ⟨h₁, h₂⟩
    rcases hq with rfl | rfl
    · exact hb h₁
    · exact hb h₂
  | number | truth | falsehood => exact of_expressible (.literal trivial)
  | name hn                    => exact of_expressible (.reference hn)
  | list _ hi                  => exact of_expressible (.list (hi.right (by simp)))
  | group _ hi | single _ hi   => exact of_expressible (hi.right (by simp))
  | several hl _ hi =>
    refine of_expressible (expressible_union (by simpa using hl) ?_)
    exact List.forall_mem_map.mpr fun part hm => (hi part hm).right (by simp)
  | plain _ hi      => exact of_expressible (hi.right (by simp))
  | optional _ hi   => exact ⟨.optional (hi.right (by simp)), fun hn => absurd rfl hn⟩
  | spaced _ _ hi   => exact hi

theorem wellFormed_of_parse {text : String} (h : Expression.parse declared text = .ok node) :
    node.WellFormed declared :=
  (wellFormed_of_derives (derives_of_parse h)).left

end Expression

namespace Definition

variable {declared : String → Bool}

variable {key : String} {node : Node}

-- The question mark of a key and that of an expression say the same, so a node takes one of them.
theorem required_field : (field key node).snd.required = node.required := by
  simp only [field]
  split
  case h_2 => rfl
  case h_1 =>
    split
    case isTrue    => rfl
    case isFalse h => exact (Node.required_of_not_optional h).symm

-- A name ends with a question mark only if its key ended with two.
theorem field_isOptional (h : dropEnd? (field key node).fst.toList ['?'] ≠ none) :
    (field key node).snd.isOptional := by
  simp only [field] at *
  split
  case h_2 hn => simp [hn] at h
  case h_1 =>
    split
    case isTrue h => exact h
    case isFalse  => rfl

theorem wellFormed_of_parses {definition : Json} (h : Parses declared definition node) :
    node.WellFormed declared := by
  induction h with
  | null          => exact .expression .primitive
  | bool | number => exact .expression (.literal trivial)
  | string h      => exact Expression.wellFormed_of_parse h
  | list _ ho hi  => exact .list hi ho
  | tuple hl hr _ hi =>
    rw [← List.length_map Prod.snd] at hl
    exact .tuple hl hr (List.forall_mem_map.mpr hi)
  | struct hd _ hi =>
    refine .struct hd ?_ ?_ ?_ <;> refine List.forall_mem_map.mpr fun part hm => ?_
    · exact required_field.symm ▸ (hi part hm).required
    · exact required_field.symm ▸ (hi part hm).required_not_optional
    · exact field_isOptional

theorem wellFormed_of_parse {definition : Json} (h : Definition.parse declared definition = .ok node) :
    node.WellFormed declared :=
  wellFormed_of_parses (parses_of_parse h)

end Definition

end JsonShape
