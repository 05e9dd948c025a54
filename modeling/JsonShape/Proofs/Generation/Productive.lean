import JsonShape.Proofs.Generation.Results

namespace JsonShape

open Synthesis

inductive Productive (space : Declarations) : Nat → Node → Prop
  | primitive : (ofKeyword keyword = .ok (some value)) → Productive space depth (.primitive keyword)
  | literal   : Productive space depth (.literal l)
  | reference : (space.resolve? name = some node) → (Productive space depth node) →
      Productive space (depth + 1) (.reference name)
  | list      : Productive space depth (.list item)
  | tuple     : (∀ slot ∈ slots, ¬slot.isOptional → Productive space depth slot) →
      Productive space depth (.tuple slots)
  | union     : (member ∈ members) → (Productive space depth member) →
      Productive space depth (.union members)
  | optional  : (Productive space depth node) → Productive space depth (.optional node)
  | struct    : (∀ member ∈ members, ¬member.snd.isOptional → Productive space depth member.snd) →
      Productive space depth (.struct members)

namespace Productive

variable {space : Declarations} {depth : Nat} {node : Node} {name : String}

theorem succ (h : Productive space depth node) : Productive space (depth + 1) node := by
  induction h with
  | primitive h        => exact .primitive h
  | literal            => exact .literal
  | reference hr _ hi  => exact .reference hr hi
  | list               => exact .list
  | tuple _ hi         => exact .tuple hi
  | union hm _ hi      => exact .union hm hi
  | optional _ hi      => exact .optional hi
  | struct _ hi        => exact .struct hi

theorem mono {depth' : Nat} (hle : depth ≤ depth') (h : Productive space depth node) :
    Productive space depth' node := by
  induction hle with
  | refl        => exact h
  | step _ hi   => exact hi.succ

-- Parts that are productive at depths of their own are productive at one depth.
theorem exists_depth {parts : List Node}
    (h : ∀ part ∈ parts, ¬part.isOptional → ∃ depth, Productive space depth part) :
    ∃ depth, ∀ part ∈ parts, ¬part.isOptional → Productive space depth part := by
  induction parts with
  | nil => exact ⟨0, by simp⟩
  | cons part rest hi =>
    obtain ⟨hp, hr⟩ := List.forall_mem_cons.mp h
    obtain ⟨depth, hr⟩ := hi hr
    by_cases ho : part.isOptional
    case pos => exact ⟨depth, List.forall_mem_cons.mpr ⟨fun hn => absurd ho hn, hr⟩⟩
    case neg =>
      obtain ⟨depth', hp⟩ := hp ho
      refine ⟨max depth depth', List.forall_mem_cons.mpr ⟨fun _ => ?_, fun other hm hn => ?_⟩⟩
      · exact hp.mono (Nat.le_max_right ..)
      · exact (hr other hm hn).mono (Nat.le_max_left ..)

-- What stands for a productive node is productive.
theorem exists_of_aliasStep {other : Node} (h : Productive space depth other)
    (hs : AliasStep space other node) : ∃ depth, Productive space depth node := by
  cases hs with
  | reference hr => exact ⟨depth + 1, .reference hr h⟩
  | member hm    => exact ⟨depth, .union hm h⟩
  | optional     => exact ⟨depth, .optional h⟩

-- At the least depth at which a name is productive, its node does not need the name itself.
theorem exists_least (h : Productive space depth (.reference name)) :
    ∃ least < depth, ∃ node, space.resolve? name = some node ∧ Productive space least node ∧
      ¬Productive space least (.reference name) := by
  induction depth with
  | zero => cases h
  | succ depth hi =>
    by_cases hd : Productive space depth (.reference name)
    case pos =>
      obtain ⟨least, hl, hn⟩ := hi hd
      exact ⟨least, Nat.lt_succ_of_lt hl, hn⟩
    case neg =>
      cases h with
      | reference hr h => exact ⟨depth, Nat.lt_succ_self _, _, hr, h, hd⟩

end Productive

-- Generation makes a value of a productive node, if no name on the way could have helped.
theorem Synthesis.exists_of_productive {space : Declarations} {substitute : Option Json} {ctx : Context}
    {node : Node} {depth : Nat} (h : Productive space depth node)
    (hn : ∀ name ∈ ctx.seen, ¬Productive space depth (.reference name)) :
    ∃ value, ofNode space substitute ctx node = .ok (some value) := by
  induction ctx, node using Context.induction space generalizing depth with
  | primitive ctx keyword =>
    rw [ofNode]
    cases h with
    | primitive hk => exact ⟨_, hk⟩
  | literal ctx l =>
    rw [ofNode]
    exact ⟨l.toJson, rfl⟩
  | reference ctx name hi =>
    obtain ⟨least, hl, node, hr, hp, hm⟩ := h.exists_least
    have hs := Context.reference_eq_node_iff.mpr ⟨hr, fun hc => hn name hc h, rfl⟩
    rw [ofNode_reference_of_node hs]
    refine hi node _ hs hp fun other ho hc => ?_
    simp only [List.mem_append, List.mem_singleton] at ho
    cases ho
    case inl ho => exact hn other ho (hc.mono (Nat.le_of_lt hl))
    case inr ho => exact hm (ho ▸ hc)
  | list ctx item =>
    rw [ofNode]
    exact ⟨.array [], rfl⟩
  | tuple ctx slots hi =>
    cases h with
    | tuple h =>
      obtain ⟨items, hs⟩ := exists_ofSlots fun slot hm ho => hi slot hm (h slot hm ho) hn
      exact ⟨.array items, by rw [ofNode_tuple, hs]; rfl⟩
  | union ctx members hi =>
    cases h with
    | union hm h =>
      rw [ofNode]
      refine exists_ofUnion hm fun hasMore => hi _ hm hasMore h ?_
      rwa [Context.seen_alternative]
  | optional ctx inner hi =>
    cases h with
    | optional h =>
      rw [ofNode]
      exact hi h hn
  | struct ctx members hi =>
    cases h with
    | struct h =>
      have hv : ∀ member ∈ members, ¬member.snd.isOptional →
          ∃ result, ofNode space substitute ctx member.snd = .ok result := by
        intro member hm ho
        obtain ⟨value, hv⟩ := hi member hm (h member hm ho) hn
        exact ⟨some value, hv⟩
      obtain ⟨entries, hs⟩ := exists_ofMembers hv
      exact ⟨.object entries, by rw [ofNode_struct, hs]; rfl⟩

end JsonShape
