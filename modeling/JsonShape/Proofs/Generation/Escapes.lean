import Mathlib
import JsonShape.Proofs.Generation.Alternatives
import JsonShape.Proofs.Generation.Substitution
import JsonShape.Proofs.Typespace.Answers

namespace JsonShape

-- The name stands in the node where generation cannot leave it out: not in a list, in no optional member
-- and in no slot that may be cut off. Of a union it is the last member that cannot be left out.
inductive Node.Needs (name : String) : Node → Prop
  | reference : Needs name (.reference name)
  | tuple     : (slot ∈ slots.takeWhile fun slot => ¬slot.isOptional) → (Needs name slot) →
      Needs name (.tuple slots)
  | union     : (members.getLast? = some member) → (Needs name member) → Needs name (.union members)
  | optional  : (Needs name node) → Needs name (.optional node)
  | struct    : (member ∈ members) → (¬member.snd.isOptional) → (Needs name member.snd) →
      Needs name (.struct members)

-- Generation runs from the node into the cycle by names that it needs.
inductive Context.RunsInto (space : Declarations) (cycle : Cycle) : Context → Node → Prop
  | cycle : (node.Needs name) → (ctx.reference space name = .cycle other cycle) →
      RunsInto space cycle ctx node
  | node  : (node.Needs name) → (ctx.reference space name = .node other inside) →
      (RunsInto space cycle inside other) → RunsInto space cycle ctx node

variable {space : Declarations} {substitute : Option Json} {ctx : Context} {node part : Node}

namespace Context.RunsInto

variable {cycle : Cycle}

theorem of_part (hn : ∀ name, part.Needs name → node.Needs name) (h : RunsInto space cycle ctx part) :
    RunsInto space cycle ctx node := by
  cases h with
  | cycle hp hr  => exact .cycle (hn _ hp) hr
  | node hp hr h => exact .node (hn _ hp) hr h

-- What kind of cycle it is depends on the escapes where generation starts.
theorem kind_eq (h : RunsInto space cycle ctx node) :
    cycle.kind = if 0 < ctx.escapes then .avoidable else .required := by
  induction h with
  | cycle _ hr =>
    obtain ⟨_, _, rfl⟩ := reference_eq_cycle_iff.mp hr
    rfl
  | node _ hr _ hi =>
    obtain ⟨_, _, rfl⟩ := reference_eq_node_iff.mp hr
    exact hi

end Context.RunsInto

open Context (RunsInto ComesTo)
open Synthesis

variable {halt : Halt}

-- The failure is the want of a value, or what becomes of a cycle that generation runs into.
def Halt.IsTraced (space : Declarations) (substitute : Option Json) (ctx : Context) (node : Node)
    (halt : Halt) : Prop :=
  (∃ definition reason, halt = .failed (.ungeneratable definition reason)) ∨
    ∃ cycle, RunsInto space cycle ctx node ∧ ofCycle substitute cycle = .error halt

namespace Halt.IsTraced

theorem of_runsInto {inside : Context}
    (hr : ∀ cycle, RunsInto space cycle inside part → RunsInto space cycle ctx node)
    (h : halt.IsTraced space substitute inside part) : halt.IsTraced space substitute ctx node := by
  refine Or.imp_right ?_ h
  rintro ⟨cycle, hc, he⟩
  exact ⟨cycle, hr cycle hc, he⟩

theorem of_part (hn : ∀ name, part.Needs name → node.Needs name)
    (h : halt.IsTraced space substitute ctx part) : halt.IsTraced space substitute ctx node :=
  h.of_runsInto fun _ => RunsInto.of_part hn

end Halt.IsTraced

theorem isTraced_of_ofNode (h : ofNode space substitute ctx node = .error halt) :
    halt.IsTraced space substitute ctx node := by
  induction ctx, node using Context.induction space generalizing halt with
  | primitive ctx keyword =>
    rw [ofNode] at h
    cases keyword <;> cases h <;> exact .inl ⟨_, _, rfl⟩
  | literal | list =>
    rw [ofNode] at h
    cases h
  | reference ctx name hi =>
    cases hr : ctx.reference space name with
    | node node inside =>
      rw [ofNode_reference_of_node hr] at h
      exact (hi node inside hr h).of_runsInto fun _ => .node .reference hr
    | cycle node cycle =>
      rw [ofNode_reference_of_cycle hr] at h
      exact .inr ⟨cycle, .cycle .reference hr, h⟩
    | unresolved =>
      rw [ofNode_reference_of_unresolved hr] at h
      cases h
      exact .inl ⟨_, _, rfl⟩
  | tuple ctx slots hi =>
    rw [ofNode_tuple, ← ofSlots_takeWhile] at h
    cases hs : ofSlots space substitute ctx (slots.takeWhile fun slot => ¬slot.isOptional) <;>
      rw [hs] at h <;> cases h
    obtain ⟨slot, hm, _, hf⟩ := ofSlots_eq_error hs
    cases hf
    case inl hf => exact (hi slot (List.takeWhile_subset _ hm) hf).of_part fun _ => .tuple hm
    case inr hf => exact .inl ⟨_, _, hf.right⟩
  | union ctx members hi =>
    rw [ofNode] at h
    rcases last_of_ofUnion (by simp) h with hu | ⟨last, hl, hn⟩
    case inl => exact .inl hu
    case inr => exact (hi last (List.mem_of_getLast? hl) false hn).of_part fun _ => .union hl
  | optional ctx inner hi =>
    rw [ofNode] at h
    exact (hi h).of_part fun _ => .optional
  | struct ctx members hi =>
    rw [ofNode_struct] at h
    cases hs : ofMembers space substitute ctx members <;> rw [hs] at h <;> cases h
    obtain ⟨member, hm, ho, hf⟩ := ofMembers_eq_error hs
    exact (hi member hm hf).of_part fun _ => .struct hm ho

section Escapes

-- With no escapes, no cycle is left to the unions around: there is none that could do with it.
theorem Synthesis.ofNode_ne_cycle (he : ctx.escapes = 0) (cycle : Cycle) :
    ofNode space substitute ctx node ≠ .error (.cycle cycle) := by
  intro h
  rcases isTraced_of_ofNode h with ⟨_, _, hn⟩ | ⟨met, hc, ho⟩
  case inl => cases hn
  case inr =>
    have hk : met.kind = .required := by rw [hc.kind_eq, if_neg (by omega)]
    cases substitute <;> simp only [ofCycle, hk] at ho <;> cases ho

theorem Synthesis.Places.escapes_eq_zero {value : Json} {path : Path} (h : Places space value ctx node path) :
    ctx.escapes = 0 := by
  induction h with
  | cycle hr hk =>
    obtain ⟨_, _, rfl⟩ := Context.reference_eq_cycle_iff.mp hr
    simpa using hk
  | reference hr _ hi =>
    obtain ⟨_, _, rfl⟩ := Context.reference_eq_node_iff.mp hr
    exact hi
  | tuple _ _ hi    => exact hi
  | union _ _ hi    => exact Nat.eq_zero_of_le_zero (hi ▸ Context.escapes_le_alternative)
  | optional _ hi   => exact hi
  | struct _ _ _ hi => exact hi

theorem Context.ComesTo.escapes_le {last : Context} {goal : Node} (h : ComesTo space last goal ctx node) :
    ctx.escapes ≤ last.escapes := by
  induction h with
  | here          => exact Nat.le_refl _
  | child _ _ hi  => exact hi
  | member _ _ hi => exact Nat.le_trans escapes_le_alternative hi
  | node hr _ hi  =>
    obtain ⟨_, _, rfl⟩ := reference_eq_node_iff.mp hr
    exact hi
  | cycle _ _ hi  => exact hi

end Escapes

section Agreement

-- The results are the same, unless the first one is a required cycle.
def Synthesis.Agrees {α : Type} (first second : Except Halt α) : Prop :=
  (∀ halt, first = .error halt → ¬halt.IsRequiredCycle) → second = first

namespace Synthesis

theorem agrees_ofSlots {slots : List Node}
    (h : ∀ slot ∈ slots, Agrees (ofNode space none ctx slot) (ofNode space substitute ctx slot)) :
    Agrees (ofSlots space none ctx slots) (ofSlots space substitute ctx slots) := by
  induction slots with
  | nil =>
    intro _
    rw [ofSlots, ofSlots]
  | cons slot rest hi =>
    obtain ⟨hs, hr⟩ := List.forall_mem_cons.mp h
    intro hc
    by_cases ho : slot.isOptional
    case pos => rw [ofSlots, ofSlots, if_pos ho, if_pos ho]
    case neg =>
      rw [ofSlots, if_neg ho] at hc
      have he : ofNode space substitute ctx slot = ofNode space none ctx slot :=
        hs fun halt hn => hc halt (by rw [hn])
      rw [ofSlots, ofSlots, if_neg ho, if_neg ho, he]
      cases hn : ofNode space none ctx slot with
      | error halt => rfl
      | ok result =>
        cases result with
        | none => rfl
        | some item =>
          have he : ofSlots space substitute ctx rest = ofSlots space none ctx rest :=
            hi hr fun halt ht => hc halt (by rw [hn, ht])
          rw [he]

theorem agrees_ofMembers {members : List (String × Node)}
    (h : ∀ member ∈ members,
      Agrees (ofNode space none ctx member.snd) (ofNode space substitute ctx member.snd)) :
    Agrees (ofMembers space none ctx members) (ofMembers space substitute ctx members) := by
  induction members with
  | nil =>
    intro _
    rw [ofMembers, ofMembers]
  | cons member rest hi =>
    obtain ⟨hm, hr⟩ := List.forall_mem_cons.mp h
    intro hc
    by_cases ho : member.snd.isOptional
    case pos =>
      rw [ofMembers, if_pos ho] at hc
      rw [ofMembers, ofMembers, if_pos ho, if_pos ho]
      exact hi hr hc
    case neg =>
      rw [ofMembers, if_neg ho] at hc
      have he : ofNode space substitute ctx member.snd = ofNode space none ctx member.snd :=
        hm fun halt hn => hc halt (by rw [hn])
      rw [ofMembers, ofMembers, if_neg ho, if_neg ho, he]
      cases hn : ofNode space none ctx member.snd with
      | error halt => rfl
      | ok result =>
        have he : ofMembers space substitute ctx rest = ofMembers space none ctx rest :=
          hi hr fun halt ht => hc halt (by rw [hn, ht])
        rw [he]

theorem agrees_ofUnion {absent : Bool} {failure : Option GenerateError} {members : List Node}
    (h : ∀ member ∈ members, ∀ hasMore, Agrees (ofNode space none (ctx.alternative hasMore) member)
      (ofNode space substitute (ctx.alternative hasMore) member)) :
    Agrees (ofUnion space none ctx absent failure members)
      (ofUnion space substitute ctx absent failure members) := by
  induction members generalizing absent failure with
  | nil =>
    intro _
    rw [ofUnion, ofUnion]
  | cons member rest hi =>
    obtain ⟨hm, hr⟩ := List.forall_mem_cons.mp h
    intro hc
    have he : ofNode space substitute (ctx.alternative (!rest.isEmpty)) member =
        ofNode space none (ctx.alternative (!rest.isEmpty)) member :=
      hm _ fun halt hn hq => hc halt (ofUnion_cons_of_isRequiredCycle hn hq) hq
    rw [ofUnion] at hc
    rw [ofUnion, ofUnion, he]
    generalize ofNode space none (ctx.alternative (!rest.isEmpty)) member = result at hc ⊢
    cases result with
    | ok result =>
      cases result with
      | none       => exact hi hr hc
      | some value => rfl
    | error halt =>
      cases halt with
      | failed error =>
        cases error with
        | ungeneratable => exact hi hr hc
        | requiredCycle => rfl
      | cycle cycle =>
        by_cases hb : ¬rest.isEmpty ∨ absent
        case pos =>
          simp only [if_pos hb] at hc ⊢
          exact hi hr hc
        case neg => simp only [if_neg hb]

theorem agrees_ofNode :
    Agrees (ofNode space none ctx node) (ofNode space substitute ctx node) := by
  induction ctx, node using Context.induction space with
  | primitive | literal | list =>
    intro _
    rw [ofNode, ofNode]
  | reference ctx name hi =>
    cases hr : ctx.reference space name with
    | node node inside =>
      rw [ofNode_reference_of_node hr, ofNode_reference_of_node hr]
      exact hi node inside hr
    | cycle node cycle =>
      rw [ofNode_reference_of_cycle hr, ofNode_reference_of_cycle hr]
      intro hc
      cases hk : cycle.kind with
      | avoidable => simp only [ofCycle, hk]
      | required  =>
        have hn : ofCycle none cycle = .error (.failed (.requiredCycle cycle.name cycle.seen)) := by
          simp only [ofCycle, hk]
        exact absurd rfl (hc _ hn)
    | unresolved =>
      intro _
      rw [ofNode_reference_of_unresolved hr, ofNode_reference_of_unresolved hr]
  | tuple ctx slots hi =>
    intro hc
    rw [ofNode_tuple] at hc
    rw [ofNode_tuple, ofNode_tuple, agrees_ofSlots hi fun halt hs => hc halt (by rw [hs]; rfl)]
  | union ctx members hi =>
    rw [ofNode, ofNode]
    exact agrees_ofUnion hi
  | optional ctx inner hi =>
    rw [ofNode, ofNode]
    exact hi
  | struct ctx members hi =>
    intro hc
    rw [ofNode_struct] at hc
    rw [ofNode_struct, ofNode_struct, agrees_ofMembers hi fun halt hs => hc halt (by rw [hs]; rfl)]

-- Without escapes, a cycle is settled inside; with one, it is left to the unions around, and a substitute
-- has no place anywhere.
theorem ofNode_of_escapes (space : Declarations) (substitute : Option Json) (ctx : Context) (node : Node) :
    (ctx.escapes = 0 → ∀ cycle, ofNode space substitute ctx node ≠ .error (.cycle cycle)) ∧
    (0 < ctx.escapes →
      (∀ definition seen,
        ofNode space substitute ctx node ≠ .error (.failed (.requiredCycle definition seen))) ∧
      (∀ last name resolved cycle, ComesTo space last (.reference name) ctx node →
        last.reference space name = .cycle resolved cycle → cycle.kind = .avoidable) ∧
      (∀ value path, ¬Places space value ctx node path) ∧
      ∀ other, ofNode space other ctx node = ofNode space substitute ctx node) := by
  refine ⟨ofNode_ne_cycle, fun he => ⟨?required, ?kind, ?places, ?other⟩⟩
  case required =>
    intro definition seen h
    exact not_isRequiredCycle (.inl he) h rfl
  case kind =>
    intro last name resolved cycle hc hr
    obtain ⟨_, _, rfl⟩ := Context.reference_eq_cycle_iff.mp hr
    exact if_pos (Nat.lt_of_lt_of_le he hc.escapes_le)
  case places =>
    intro value path h
    exact Nat.ne_of_gt he h.escapes_eq_zero
  case other =>
    have hn {other : Option Json} : ofNode space other ctx node = ofNode space none ctx node :=
      agrees_ofNode fun halt h => not_isRequiredCycle (.inl he) h
    exact fun other => hn.trans hn.symm

-- Both members of the union meet the cycle. Where no other union is around, that is a required cycle.
theorem ofNode_of_escapes_twice :
    ∃ (space : Typespace) (node : Node),
      Typespace.ofJson (.object [("a", .object [("x", .string "a|a")])]) = .ok space ∧
      node = .struct [("x", .union [.reference "a", .reference "a"])] ∧
      (Context.escapes ⟨["a"], 0⟩ = 0 ∧
        ∀ cycle, ofNode space.declarations none ⟨["a"], 0⟩ node ≠ .error (.cycle cycle)) ∧
      0 < Context.escapes ⟨["a"], 1⟩ ∧
      (∀ definition seen, ofNode space.declarations none ⟨["a"], 1⟩ node ≠
        .error (.failed (.requiredCycle definition seen))) ∧
      (∀ last name resolved cycle, ComesTo space.declarations last (.reference name) ⟨["a"], 1⟩ node →
        last.reference space.declarations name = .cycle resolved cycle → cycle.kind = .avoidable) ∧
      (∀ value path, ¬Places space.declarations value ⟨["a"], 1⟩ node path) ∧
      ∀ other, ofNode space.declarations other ⟨["a"], 1⟩ node =
        ofNode space.declarations none ⟨["a"], 1⟩ node := by
  have ha : Declarations.aliasCycle?
      [⟨"a", .object [("x", .string "a|a")], .struct [("x", .union [.reference "a", .reference "a"])]⟩] =
      none := by cbv
  let space : Typespace := ⟨_, AliasStep.wellFounded_of_aliasCycle? ha⟩
  let node : Node := .struct [("x", .union [.reference "a", .reference "a"])]
  exact ⟨space, node, Typespace.ofJson_object_eq_ok_iff.mpr ⟨by decide, by cbv, ha⟩, rfl,
    ⟨rfl, (ofNode_of_escapes space.declarations none ⟨["a"], 0⟩ node).left rfl⟩, Nat.one_pos,
    (ofNode_of_escapes space.declarations none ⟨["a"], 1⟩ node).right Nat.one_pos⟩

end Synthesis

end Agreement

section Generate

variable {space : Typespace} {definition : String} {seen : List String}

-- A required cycle that is reported was met as one. No other cycle is left at the end.
theorem generate_eq_requiredCycle_iff {options : GenerateOptions} :
    generate space options node = .error (.requiredCycle definition seen) ↔
      ofNode space.declarations options.onRequiredCycle {} node =
        .error (.failed (.requiredCycle definition seen)) := by
  have hc (cycle : Cycle) :
      ofNode space.declarations options.onRequiredCycle {} node ≠ .error (.cycle cycle) :=
    ofNode_ne_cycle rfl cycle
  rw [generate]
  split
  case h_1 h => simp [h]
  case h_2 h => simp [h, unrepresentable]
  case h_3 h => simp [h]
  case h_4 h => exact absurd h (hc _)

theorem generate_eq_of_ne_requiredCycle (substitute : Json)
    (h : ∀ definition seen, generate space {} node ≠ .error (.requiredCycle definition seen)) :
    generate space { onRequiredCycle := some substitute } node = generate space {} node := by
  have hn : ofNode space.declarations (some substitute) {} node = ofNode space.declarations none {} node := by
    refine agrees_ofNode fun halt hn hc => ?_
    cases halt with
    | cycle cycle  => exact hc
    | failed error =>
      cases error with
      | ungeneratable => cases hc
      | requiredCycle definition seen => exact h definition seen (generate_eq_requiredCycle_iff.mpr hn)
  rw [generate, generate, hn]

-- Values and other failures stay as they are, and no required cycle is reported.
theorem generate_substitute (space : Typespace) (node : Node) (substitute : Json) :
    (∀ value, generate space {} node = .ok value →
      generate space { onRequiredCycle := some substitute } node = .ok value) ∧
    (∀ definition reason, generate space {} node = .error (.ungeneratable definition reason) →
      generate space { onRequiredCycle := some substitute } node =
        .error (.ungeneratable definition reason)) ∧
    ∀ definition seen,
      generate space { onRequiredCycle := some substitute } node ≠
        .error (.requiredCycle definition seen) := by
  refine ⟨fun value h => ?value, fun definition reason h => ?failure, fun definition seen h => ?cycle⟩
  case value   => exact (generate_eq_of_ne_requiredCycle substitute (by simp [h])).trans h
  case failure => exact (generate_eq_of_ne_requiredCycle substitute (by simp [h])).trans h
  case cycle   => exact not_isRequiredCycle (.inr rfl) (generate_eq_requiredCycle_iff.mp h) rfl

-- The tree avoids its cycle, and the chain cannot.
theorem generate_substitute_tree :
    ∃ space,
      Typespace.ofJson
        (.object [("tree", .object [("next", .string "tree|null")]),
          ("chain", .object [("next", .string "chain")])]) = .ok space ∧
      (generate space {} (.reference "tree") = .ok (.object [("next", .null)]) ∧
        generate space { onRequiredCycle := some (.bool true) } (.reference "tree") =
          .ok (.object [("next", .null)])) ∧
      (generate space {} (.tuple [.reference "tree", .primitive .never]) =
          .error (.ungeneratable "never" "'never' has no values.") ∧
        generate space { onRequiredCycle := some (.bool true) }
            (.tuple [.reference "tree", .primitive .never]) =
          .error (.ungeneratable "never" "'never' has no values.")) ∧
      ∀ definition seen, generate space { onRequiredCycle := some (.bool true) } (.reference "chain") ≠
        .error (.requiredCycle definition seen) := by
  have ha : Declarations.aliasCycle?
      [⟨"tree", .object [("next", .string "tree|null")],
          .struct [("next", .union [.reference "tree", .primitive .null])]⟩,
        ⟨"chain", .object [("next", .string "chain")], .struct [("next", .reference "chain")]⟩] = none := by cbv
  let space : Typespace := ⟨_, AliasStep.wellFounded_of_aliasCycle? ha⟩
  have hv : generate space {} (.reference "tree") = .ok (.object [("next", .null)]) := by cbv
  have hf : generate space {} (.tuple [.reference "tree", .primitive .never]) =
      .error (.ungeneratable "never" "'never' has no values.") := by cbv
  exact ⟨space, Typespace.ofJson_object_eq_ok_iff.mpr ⟨by decide, by cbv, ha⟩,
    ⟨hv, (generate_substitute space _ (.bool true)).left _ hv⟩,
    ⟨hf, (generate_substitute space _ (.bool true)).right.left _ _ hf⟩,
    (generate_substitute space _ (.bool true)).right.right⟩

end Generate

end JsonShape
