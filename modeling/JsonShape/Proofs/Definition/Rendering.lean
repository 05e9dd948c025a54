import JsonShape.Proofs.Definition.Grammar

namespace JsonShape

namespace Node

theorem memberTexts_eq_map {members : List Node} :
    memberTexts members = members.map fun member => member.enclosed member.text := by
  induction members with
  | nil => rw [memberTexts, List.map_nil]
  | cons member rest hi => rw [memberTexts, List.map_cons, hi]

theorem enclosed_of_not_loose {node : Node} {text : String} (h : ¬node.isLoose) :
    node.enclosed text = text :=
  if_neg h

-- No member of a union needs parentheses.
theorem toList_text_union {members : List Node} (h : ∀ member ∈ members, ¬member.isLoose) :
    (union members).text.toList = ['|'].intercalate (members.map fun member => member.text.toList) := by
  have hm : memberTexts members = members.map text :=
    memberTexts_eq_map.trans (List.map_congr_left fun member hm => enclosed_of_not_loose (h member hm))
  simp only [text, hm, String.toList_intercalate, List.map_map]
  rfl

end Node

namespace Expression

variable {declared : String → Bool} {node : Node}

theorem flatMap_alternatives {members : List Node} (h : ∀ member ∈ members, ¬member.isLoose) :
    members.flatMap alternatives = members := by
  induction members with
  | nil => rfl
  | cons member rest hi =>
    obtain ⟨hm, hr⟩ := List.forall_mem_cons.mp h
    have hs : alternatives member = [member] := by
      cases member
      case union => exact absurd rfl hm
      all_goals rfl
    rw [List.flatMap_cons, hs, hi hr]
    rfl

theorem derives_literal {l : Literal} (hw : l.IsWritable) (hr : l.IsReadable) :
    Derives declared .member l.text.toList (.literal l) := by
  cases l with
  | string s =>
    obtain ⟨quote, hq, hs, ht⟩ := Literal.exists_quote hw
    have hd : Derives declared .member (quote :: s.toList ++ [quote]) _ := .quoted hq hs
    rwa [← ht, String.ofList_toList] at hd
  | number x =>
    obtain ⟨hn, hx⟩ := hr
    obtain ⟨n, ht⟩ := Numeral.exists_of_isNumber hn
    have hd : Derives declared .member n.text (.literal (.number n.value)) := .number n
    rwa [← n.numberOfText_text, ht, hx] at hd
  | bool b =>
    cases b with
    | true  => exact .truth
    | false => exact .falsehood

-- Parentheses make a member of every expression.
theorem Derives.enclosed (hu : Derives declared .union node.text.toList node)
    (hm : ¬node.isLoose → Derives declared .member node.text.toList node) :
    Derives declared .member (node.enclosed node.text).toList node := by
  by_cases hl : node.isLoose
  case neg => exact (Node.enclosed_of_not_loose hl).symm ▸ hm hl
  case pos =>
    have he : (node.enclosed node.text).toList = '(' :: node.text.toList ++ [')'] := by
      simp [Node.enclosed, hl]
    exact he ▸ hu.group

-- Each literal has a text that stands for it. A node that is not loose is a member as it stands.
theorem derives_text (hr : ∀ l, Node.Part (.literal l) node → l.IsReadable)
    (h : node.Expressible declared) :
    Derives declared .union node.text.toList node ∧
      (¬node.isLoose → Derives declared .member node.text.toList node) := by
  have of_member {node : Node} (hm : Derives declared .member node.text.toList node) :
      Derives declared .union node.text.toList node ∧
        (¬node.isLoose → Derives declared .member node.text.toList node) :=
    ⟨.single hm, fun _ => hm⟩
  induction h with
  | primitive    => exact of_member (.keyword _)
  | literal hw   => exact of_member (derives_literal hw (hr _ .self))
  | reference hn => exact of_member (.name hn)
  | @list item _ hi =>
    obtain ⟨hu, hm⟩ := hi fun l hp => hr l (.list hp)
    have ht : (Node.list item).text.toList = (item.enclosed item.text).toList ++ ['[', ']'] := by
      simp [Node.text]
    exact of_member (ht ▸ (hu.enclosed hm).list)
  | @union members hl _ hn hi =>
    have hp : ∀ part ∈ members.map fun member => (member.text.toList, member),
        Derives declared .member part.fst part.snd :=
      List.forall_mem_map.mpr fun member hm =>
        (hi member hm fun l hp => hr l (.union hm hp)).right (hn member hm)
    have hd := Derives.several (by simpa using hl) hp
    simp only [List.map_map, Function.comp_def, List.map_id', flatMap_alternatives hn] at hd
    exact ⟨Node.toList_text_union hn ▸ hd, fun hc => absurd rfl hc⟩

theorem parse_text (hd : ∀ name, declared name → isTypeName name ∧ ¬isReserved name)
    (hr : ∀ l, Node.Part (.literal l) node → l.IsReadable) (h : node.Expressible declared) :
    parse declared node.text = .ok node :=
  parse_of_derives hd (.plain (derives_text hr h).left)

theorem parse_text_optional (hd : ∀ name, declared name → isTypeName name ∧ ¬isReserved name)
    (hr : ∀ l, Node.Part (.literal l) node → l.IsReadable) (h : node.Expressible declared) :
    parse declared (Node.optional node).text = .ok (.optional node) := by
  have ht : (Node.optional node).text.toList = node.text.toList ++ ['?'] := by simp [Node.text]
  exact parse_of_derives hd (ht ▸ .optional (derives_text hr h).left)

end Expression

end JsonShape
