import Mathlib
import JsonShape.Proofs.Generation.Escapes

namespace JsonShape

namespace Declarations

-- The node of the first name needs the second name.
def Needs (space : Declarations) (name other : String) : Prop :=
  ∃ node, space.resolve? name = some node ∧ node.Needs other

-- The node needs the first name of the path, and each name on it needs the next one.
structure IsNeedPath (space : Declarations) (node : Node) (path : List String) : Prop where
  head  : ∀ first ∈ path.head?, node.Needs first
  chain : path.IsChain space.Needs

namespace IsNeedPath

variable {space : Declarations} {node other : Node} {name : String} {path : List String}

theorem singleton (hn : node.Needs name) : space.IsNeedPath node [name] where
  head  := by
    intro first hf
    cases hf
    exact hn
  chain := .singleton name

theorem cons (hn : node.Needs name) (hr : space.resolve? name = some other)
    (h : space.IsNeedPath other path) : space.IsNeedPath node (name :: path) where
  head  := by
    intro first hf
    cases hf
    exact hn
  chain := List.isChain_cons.mpr ⟨fun next hf => ⟨other, hr, h.head next hf⟩, h.chain⟩

end IsNeedPath

end Declarations

namespace Context.RunsInto

variable {space : Declarations} {ctx : Context} {node : Node} {cycle : Cycle}

-- The names that generation adds to those on the way are the path to the cycle.
theorem exists_path (h : RunsInto space cycle ctx node) :
    ∃ path, cycle.seen = ctx.seen ++ path ∧ space.IsNeedPath node (path ++ [cycle.name]) := by
  induction h with
  | cycle hn hr =>
    obtain ⟨_, _, rfl⟩ := reference_eq_cycle_iff.mp hr
    exact ⟨[], (List.append_nil _).symm, .singleton hn⟩
  | @node _ _ _ _ name hn hr _ hi =>
    obtain ⟨hs, _, rfl⟩ := reference_eq_node_iff.mp hr
    obtain ⟨path, he, hp⟩ := hi
    exact ⟨name :: path, by rw [he, List.append_assoc, List.singleton_append], hp.cons hn hs⟩

theorem name_mem (h : RunsInto space cycle ctx node) : cycle.name ∈ cycle.seen := by
  induction h with
  | cycle _ hr =>
    obtain ⟨_, hm, rfl⟩ := reference_eq_cycle_iff.mp hr
    exact hm
  | node _ _ _ hi => exact hi

theorem nodup (h : RunsInto space cycle ctx node) (hd : ctx.seen.Nodup) : cycle.seen.Nodup := by
  induction h with
  | cycle _ hr =>
    obtain ⟨_, _, rfl⟩ := reference_eq_cycle_iff.mp hr
    exact hd
  | node _ hr _ hi =>
    obtain ⟨_, hn, rfl⟩ := reference_eq_node_iff.mp hr
    exact hi (List.concat_eq_append ▸ hd.concat hn)

end Context.RunsInto

section Generate

variable {space : Typespace} {node : Node} {definition : String} {seen : List String}

theorem isNeedPath_of_requiredCycle {options : GenerateOptions}
    (h : generate space options node = .error (.requiredCycle definition seen)) :
    seen ≠ [] ∧ seen.Nodup ∧ definition ∈ seen ∧
      space.declarations.IsNeedPath node (seen ++ [definition]) := by
  have hn := generate_eq_requiredCycle_iff.mp h
  rcases isTraced_of_ofNode hn with ⟨_, _, hu⟩ | ⟨cycle, hc, ho⟩
  case inl => cases hu
  case inr =>
    obtain ⟨rfl, rfl⟩ : cycle.name = definition ∧ cycle.seen = seen := by
      simp only [Synthesis.ofCycle] at ho
      split at ho <;> cases ho
      exact ⟨rfl, rfl⟩
    have hm : cycle.name ∈ cycle.seen := hc.name_mem
    have hd : cycle.seen.Nodup := hc.nodup .nil
    obtain ⟨path, he, hp⟩ := hc.exists_path
    rw [he, List.nil_append] at hm hd ⊢
    exact ⟨List.ne_nil_of_mem hm, hd, hm, hp⟩

-- The cycle does not come back to the name that it is reached from.
theorem isNeedPath_of_requiredCycle_detour :
    ∃ space,
      Typespace.ofJson
        (.object
          [("start", .object [("next", .string "never|loop")]),
            ("loop", .array [.string "'x'", .string "again", .string "start?"]),
            ("again", .object [("more?", .string "again"), ("back", .string "loop")])]) = .ok space ∧
      generate space {} (.reference "start") = .error (.requiredCycle "loop" ["start", "loop", "again"]) ∧
      ["start", "loop", "again"] ≠ [] ∧ ["start", "loop", "again"].Nodup ∧
      "loop" ∈ ["start", "loop", "again"] ∧
      space.declarations.IsNeedPath (.reference "start") (["start", "loop", "again"] ++ ["loop"]) := by
  have ha : Declarations.aliasCycle?
      [⟨"start", .object [("next", .string "never|loop")],
          .struct [("next", .union [.primitive .never, .reference "loop"])]⟩,
        ⟨"loop", .array [.string "'x'", .string "again", .string "start?"],
          .tuple [.literal (.string "x"), .reference "again", .optional (.reference "start")]⟩,
        ⟨"again", .object [("more?", .string "again"), ("back", .string "loop")],
          .struct [("more", .optional (.reference "again")), ("back", .reference "loop")]⟩] = none := by cbv
  let space : Typespace := ⟨_, AliasStep.wellFounded_of_aliasCycle? ha⟩
  have hg : generate space {} (.reference "start") =
      .error (.requiredCycle "loop" ["start", "loop", "again"]) := by cbv
  exact ⟨space, Typespace.ofJson_object_eq_ok_iff.mpr ⟨by decide, by cbv, ha⟩, hg,
    isNeedPath_of_requiredCycle hg⟩

end Generate

end JsonShape
