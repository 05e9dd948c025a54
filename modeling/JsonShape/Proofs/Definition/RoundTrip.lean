import JsonShape.Proofs.Definition.Rendering
import JsonShape.Proofs.Definition.WellFormed

namespace JsonShape

namespace Node

variable {declared : String → Bool} {node : Node}

theorem allExpressions_iff {members : List Node} :
    allExpressions members ↔ ∀ member ∈ members, member.isExpression := by
  induction members with
  | nil => simp [allExpressions]
  | cons member rest hi => simp [allExpressions, hi]

theorem Expressible.isExpression (h : node.Expressible declared) : node.isExpression := by
  induction h with
  | primitive | literal | reference => rw [Node.isExpression]
  | list _ hi => rwa [Node.isExpression]
  | union _ _ _ hi =>
    rw [Node.isExpression]
    exact allExpressions_iff.mpr hi

theorem WellFormed.expressible (h : node.WellFormed declared) (ho : ¬node.isOptional)
    (he : node.isExpression) : node.Expressible declared := by
  induction h with
  | expression h => exact h
  | optional     => exact absurd rfl ho
  | list _ hn hi =>
    rw [isExpression] at he
    exact .list (hi hn he)
  | tuple | struct =>
    rw [isExpression] at he
    cases he

theorem Expressible.definition (h : node.Expressible declared) :
    node.definition = .string node.text := by
  cases h with
  | list h => rw [Node.definition, if_pos h.isExpression]
  | primitive | literal | reference | union => rw [Node.definition] <;> intros <;> contradiction

-- The key that a struct member is written under.
def key (member : String × Node) : String :=
  if member.snd.isOptional then member.fst ++ "?" else member.fst

theorem fieldDefinitions_eq_map {members : List (String × Node)} :
    fieldDefinitions members =
      members.map fun member => (key member, member.snd.required.definition) := by
  induction members with
  | nil => rw [fieldDefinitions, List.map_nil]
  | cons member rest hi =>
    obtain ⟨name, member⟩ := member
    cases member <;> simp [fieldDefinitions, key, isOptional, required, hi]

theorem slotDefinitions_eq_map {slots : List Node} : slotDefinitions slots = slots.map definition := by
  induction slots with
  | nil => rw [slotDefinitions, List.map_nil]
  | cons slot rest hi => rw [slotDefinitions, List.map_cons, hi]

end Node

namespace Definition

open Expression Node

variable {declared : String → Bool} {node : Node}

section Fields

variable {member : String × Node} {members : List (String × Node)}

-- No key gets a question mark that its name ends with.
theorem field_key (ho : ¬member.snd.required.isOptional)
    (hm : dropEnd? member.fst.toList ['?'] ≠ none → member.snd.isOptional) :
    field (key member) member.snd.required = member := by
  obtain ⟨name, node⟩ := member
  by_cases hn : node.isOptional
  case pos =>
    cases node <;> cases hn
    case optional inner =>
      have hd : dropEnd? (name ++ "?").toList ['?'] = some name.toList := dropEnd?_mark_eq_some_iff.mpr rfl
      have ho : ¬inner.isOptional := ho
      have hi : field (name ++ "?") inner = (name, .optional inner) := by
        simp only [field, hd, String.ofList_toList]
        rw [if_neg ho]
      exact hi
  case neg =>
    have hd : dropEnd? name.toList ['?'] = none := Decidable.not_not.mp (mt hm hn)
    simp only [field, key, if_neg hn, hd, required_of_not_optional hn]

theorem fst_eq_of_key_eq {other : String × Node}
    (hm : dropEnd? member.fst.toList ['?'] ≠ none → member.snd.isOptional)
    (ho : dropEnd? other.fst.toList ['?'] ≠ none → other.snd.isOptional)
    (h : key member = key other) : member.fst = other.fst := by
  have hd (name : String) : dropEnd? (name ++ "?").toList ['?'] ≠ none := by
    rw [dropEnd?_mark_eq_some_iff.mpr rfl]
    exact Option.some_ne_none _
  by_cases h₁ : member.snd.isOptional <;> by_cases h₂ : other.snd.isOptional
  case pos =>
    rw [key, key, if_pos h₁, if_pos h₂] at h
    exact String.append_left_inj "?" |>.mp h
  case neg =>
    rw [key, key, if_pos h₁, if_neg h₂] at h
    exact absurd (ho (h ▸ hd _)) h₂
  case pos =>
    rw [key, key, if_neg h₁, if_pos h₂] at h
    exact absurd (hm (h ▸ hd _)) h₁
  case neg =>
    rwa [key, key, if_neg h₁, if_neg h₂] at h

theorem distinct_fieldDefinitions (hd : Members.Distinct members)
    (hm : ∀ member ∈ members, dropEnd? member.fst.toList ['?'] ≠ none → member.snd.isOptional) :
    Members.Distinct (fieldDefinitions members) := by
  have hk : members.Pairwise fun member other => key member ≠ key other := by
    refine (List.pairwise_map.mp hd).imp_of_mem fun h₁ h₂ hn he => hn ?_
    exact fst_eq_of_key_eq (hm _ h₁) (hm _ h₂) he
  rw [fieldDefinitions_eq_map, Members.Distinct, Members.names, List.map_map]
  exact List.pairwise_map.mpr hk

end Fields

-- The names are such as may be declared, and each literal has a text that stands for it.
theorem parses_definition (hd : ∀ name, declared name → isTypeName name ∧ ¬isReserved name)
    (hr : ∀ l, Node.Part (.literal l) node → l.IsReadable) (h : node.WellFormed declared) :
    Parses declared node.definition node := by
  induction h with
  | expression he =>
    rw [he.definition]
    exact .string (parse_text hd hr he)
  | optional he =>
    rw [Node.definition, if_pos he.isExpression]
    exact .string (parse_text_optional hd (fun l hp => hr l (.optional hp)) he)
  | @list item hw ho hi =>
    by_cases he : item.isExpression
    case pos =>
      have he := hw.expressible ho he
      rw [Expressible.definition (.list he)]
      exact .string (parse_text hd hr (.list he))
    case neg =>
      rw [Node.definition, if_neg he]
      exact .list (hi fun l hp => hr l (.list hp)) ho
  | @tuple slots hl hq _ hi =>
    let parts : List (Json × Node) := slots.map fun slot => (slot.definition, slot)
    have hf : parts.map Prod.fst = slots.map Node.definition := List.map_map
    have hs : parts.map Prod.snd = slots := List.map_map.trans (List.map_id slots)
    rw [Node.definition, slotDefinitions_eq_map, ← hf, ← hs]
    refine .tuple ?_ (hs.symm ▸ hq) (List.forall_mem_map.mpr fun slot hm => ?_)
    · exact (List.length_map _).trans_ne hl
    · exact hi slot hm fun l hp => hr l (.tuple hm hp)
  | @struct members hm _ ho hn hi =>
    let parts : List ((String × Json) × Node) :=
      members.map fun member => ((key member, member.snd.required.definition), member.snd.required)
    have hf : parts.map Prod.fst = fieldDefinitions members := List.map_map.trans fieldDefinitions_eq_map.symm
    have hs : parts.map memberOf = members :=
      calc parts.map memberOf = members.map fun m => field (key m) m.snd.required := List.map_map
        _ = members.map id := List.map_congr_left fun m h => field_key (ho m h) (hn m h)
        _ = members := List.map_id members
    rw [Node.definition, Members.ofList_of_distinct (distinct_fieldDefinitions hm hn), ← hf, ← hs]
    refine .struct (hs.symm ▸ hm) (List.forall_mem_map.mpr fun member h => ?_)
    exact hi member h fun l hp => hr l (.struct h (Node.part_of_part_required hp))

theorem parse_definition_of_parse {definition : Json}
    (hd : ∀ name, declared name → isTypeName name ∧ ¬isReserved name)
    (hp : Definition.parse declared definition = .ok node)
    (hn : ∀ x, Node.Part (.literal (.number x)) node →
      isNumber (Literal.number x).text.toList ∧ numberOfText (Literal.number x).text.toList = x) :
    Definition.parse declared node.definition = .ok node := by
  refine parse_of_parses (parses_definition hd (fun l hl => ?_) (wellFormed_of_parse hp))
  cases l with
  | number x          => exact hn x hl
  | string _ | bool _ => trivial

-- Quotes of both kinds, a union in a list, an optional key and an optional expression come back.
theorem parse_definition_of_parse_user :
    ∃ n node, (∀ name, name = "user" → isTypeName name ∧ ¬isReserved name) ∧
      Definition.parse (· = "user")
        (.object [("id", .string "('x' | \"it's\" | user)[]?"),
          ("at?", .array [.number n, .string "string?"])]) = .ok node ∧
      (∀ x, Node.Part (.literal (.number x)) node →
        isNumber (Literal.number x).text.toList ∧ numberOfText (Literal.number x).text.toList = x) ∧
      Definition.parse (· = "user") node.definition = .ok node := by
  have hd : ∀ name, decide (name = "user") = true → isTypeName name ∧ ¬isReserved name := by
    intro name h
    cases of_decide_eq_true h
    decide
  have hp (n : Json.Number) : Definition.parse (· = "user")
      (.object [("id", .string "('x' | \"it's\" | user)[]?"),
        ("at?", .array [.number n, .string "string?"])]) =
        .ok (.struct [("id", .optional (.list (.union
            [.literal (.string "x"), .literal (.string "it's"), .reference "user"]))),
          ("at", .optional (.tuple [.literal (.number n.value), .optional (.primitive .string)]))]) := by
    cbv
  have hv : isNumber (Literal.number (.ofInt 2)).text.toList ∧
      numberOfText (Literal.number (.ofInt 2)).text.toList = .ofInt 2 := by
    decide +kernel
  refine ⟨.integer { val := 2 }, _, fun name h => hd name (decide_eq_true h), hp _, ?hn,
    parse_definition_of_parse hd (hp _) ?hn⟩
  case hn => simpa [Json.Number.value] using hv

end Definition

end JsonShape
