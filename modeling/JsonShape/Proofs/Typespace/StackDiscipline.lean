import Mathlib.Logic.Relation
import JsonShape.Typespace.Traversal

namespace JsonShape

open Relation

-- A call that has not come to its end, and what goes on behind it.
inductive Frame (α : Type)
  | reference (name : String) (step : Step) (next : α → Traversal α)
  | alternative (hasMore : Bool) (next : α → Traversal α)

namespace Frame

variable {α : Type}

-- The name that a call has added to the names on the way. Only a name that led to its node was added.
def added? : Frame α → Option String
  | reference name (.node ..) _ => some name
  | reference .. | alternative .. => none

-- Can another member be picked in place of the one that is tried?
def hasMore : Frame α → Bool
  | reference .. => false
  | alternative hasMore _ => hasMore

-- The names that calls have added, the outermost one in front.
def names (frames : List (Frame α)) : List String :=
  (frames.filterMap added?).reverse

end Frame

structure Moment (α : Type) where
  -- The innermost call stands in front.
  frames  : List (Frame α)
  context : Context
  -- What is left to do inside of the innermost call.
  rest    : Traversal α

namespace Moment

section

variable {α : Type}

-- The beginning of a traversal, in a context that is new.
def start (traversal : Traversal α) : Moment α where
  frames  := []
  context := {}
  rest    := traversal

-- One thing is done: a look, the start of a call, or the end of the innermost one.
inductive Moves (space : Declarations) : Moment α → Moment α → Prop
  | look : Moves space ⟨outer, ctx, .look next⟩ ⟨outer, ctx, next ctx.seen⟩
  | follow : (ctx.reference space name = step) →
      Moves space ⟨outer, ctx, .call (.reference name visit) next⟩
        ⟨.reference name step next :: outer, step.enter ctx, visit step⟩
  | leave : Moves space ⟨.reference name step next :: outer, ctx, .done result⟩
      ⟨outer, step.leave ctx, next result⟩
  | attempt : Moves space ⟨outer, ctx, .call (.alternative hasMore body) next⟩
      ⟨.alternative hasMore next :: outer, ctx.alternative hasMore, body⟩
  | retract : Moves space ⟨.alternative hasMore next :: outer, ctx, .done result⟩
      ⟨outer, ctx.retract hasMore, next result⟩

end

end Moment

-- The context is what the calls around have made of a new one.
structure Context.Balanced {α : Type} (space : Declarations) (frames : List (Frame α)) (ctx : Context) :
    Prop where
  seen     : ctx.seen = Frame.names frames
  escapes  : ctx.escapes = frames.countP Frame.hasMore
  distinct : ctx.seen.Nodup
  declared : ∀ name ∈ ctx.seen, name ∈ space.names

open Moment

theorem Declarations.mem_names_iff {space : Declarations} {name : String} :
    name ∈ space.names ↔ ∃ node, space.resolve? name = some node := by
  rw [← Option.ne_none_iff_exists', ne_eq, resolve?_eq_none_iff, Decidable.not_not]

variable {α : Type} {space : Declarations} {ctx : Context} {name : String} {hasMore : Bool}
variable {outer : List (Frame α)} {next : α → Traversal α} {rest other : Traversal α} {step : Step}

theorem Context.retract_alternative : (ctx.alternative hasMore).retract hasMore = ctx := by
  cases hasMore <;> rfl

theorem Context.exists_node_iff :
    (∃ node inside, ctx.reference space name = .node node inside) ↔ name ∈ space.names ∧ name ∉ ctx.seen := by
  simp only [reference_eq_node_iff, Declarations.mem_names_iff]
  constructor
  case mp =>
    rintro ⟨node, inside, hr, hn, _⟩
    exact ⟨⟨node, hr⟩, hn⟩
  case mpr =>
    rintro ⟨⟨node, hr⟩, hn⟩
    exact ⟨node, _, hr, hn, rfl⟩

theorem Context.exists_cycle_iff :
    (∃ node cycle, ctx.reference space name = .cycle node cycle) ↔ name ∈ space.names ∧ name ∈ ctx.seen := by
  simp only [reference_eq_cycle_iff, Declarations.mem_names_iff]
  constructor
  case mp =>
    rintro ⟨node, cycle, hr, hs, _⟩
    exact ⟨⟨node, hr⟩, hs⟩
  case mpr =>
    rintro ⟨⟨node, hr⟩, hs⟩
    exact ⟨node, _, hr, hs, rfl⟩

theorem Context.leave_enter (h : ctx.reference space name = step) : step.leave (step.enter ctx) = ctx := by
  cases step with
  | node node inside =>
    obtain ⟨_, _, rfl⟩ := reference_eq_node_iff.mp h
    simp only [Step.enter, Step.leave, List.dropLast_concat]
  | cycle | unresolved => rfl

mutual

-- Whatever is done with a context, it comes back as it was.
theorem Traversal.snd_run (ctx : Context) (traversal : Traversal α) :
    (traversal.run space ctx).snd = ctx := by
  cases traversal with
  | done result    => rfl
  | look next      => exact Traversal.snd_run ctx (next ctx.seen)
  | call call next =>
    rw [Traversal.run]
    simp only [Call.snd_run ctx call]
    exact Traversal.snd_run ctx _

theorem Call.snd_run (ctx : Context) (call : Call α) : (call.run space ctx).snd = ctx := by
  cases call with
  | reference name visit =>
    rw [Call.run]
    simp only [Traversal.snd_run _ (visit _)]
    exact Context.leave_enter rfl
  | alternative hasMore body =>
    rw [Call.run]
    simp only [Traversal.snd_run _ body]
    exact Context.retract_alternative

end

mutual

-- The moves lead to where a run ends, with the calls around as they were.
theorem Traversal.moves_run (ctx : Context) (outer : List (Frame α)) (traversal : Traversal α) :
    ReflTransGen (Moves space) ⟨outer, ctx, traversal⟩
      ⟨outer, (traversal.run space ctx).snd, .done (traversal.run space ctx).fst⟩ := by
  cases traversal with
  | done result    => exact .refl
  | look next      => exact .head .look (Traversal.moves_run ctx outer (next ctx.seen))
  | call call next =>
    rw [Traversal.run]
    exact (Call.moves_run ctx outer next call).trans (Traversal.moves_run _ outer _)

theorem Call.moves_run (ctx : Context) (outer : List (Frame α)) (next : α → Traversal α) (call : Call α) :
    ReflTransGen (Moves space) ⟨outer, ctx, .call call next⟩
      ⟨outer, (call.run space ctx).snd, next (call.run space ctx).fst⟩ := by
  cases call with
  | reference name visit =>
    rw [Call.run]
    exact .head (.follow rfl) (.tail (Traversal.moves_run _ _ (visit _)) .leave)
  | alternative hasMore body =>
    rw [Call.run]
    exact .head .attempt (.tail (Traversal.moves_run _ _ body) .retract)

end

theorem Frame.names_cons {frame : Frame α} :
    names (frame :: outer) = names outer ++ frame.added?.toList := by
  cases h : frame.added? <;> simp [names, h]

namespace Context.Balanced

theorem empty : Balanced (α := α) space [] {} where
  seen     := rfl
  escapes  := rfl
  distinct := .nil
  declared := by simp

theorem follow (hr : ctx.reference space name = step) (h : Balanced space outer ctx) :
    Balanced space (.reference name step next :: outer) (step.enter ctx) := by
  cases step with
  | cycle | unresolved => exact ⟨h.seen, h.escapes, h.distinct, h.declared⟩
  | node node inside =>
    obtain ⟨hd, hn, rfl⟩ := reference_eq_node_iff.mp hr
    constructor
    case seen     => rw [Frame.names_cons, ← h.seen]; rfl
    case escapes  => exact h.escapes
    case distinct =>
      refine List.nodup_append.mpr ⟨h.distinct, List.pairwise_singleton _ _, fun seen hs other ho he => ?_⟩
      exact hn (List.mem_singleton.mp ho ▸ he ▸ hs)
    case declared =>
      refine List.forall_mem_append.mpr ⟨h.declared, ?_⟩
      simpa using Declarations.mem_names_of_resolve? hd

theorem leave (h : Balanced space (.reference name step next :: outer) ctx) :
    Balanced space outer (step.leave ctx) := by
  cases step with
  | cycle | unresolved => exact ⟨h.seen, h.escapes, h.distinct, h.declared⟩
  | node node inside =>
    have hs : ctx.seen = Frame.names outer ++ [name] := h.seen.trans Frame.names_cons
    constructor
    case seen     => simp only [Step.leave, hs, List.dropLast_concat]
    case escapes  => exact h.escapes
    case distinct => exact h.distinct.sublist (List.dropLast_sublist _)
    case declared => exact fun name hm => h.declared name (List.dropLast_subset _ hm)

theorem attempt (h : Balanced space outer ctx) :
    Balanced space (.alternative hasMore next :: outer) (ctx.alternative hasMore) := by
  cases hasMore with
  | false => exact ⟨h.seen, h.escapes, h.distinct, h.declared⟩
  | true  =>
    refine ⟨h.seen, ?_, h.distinct, h.declared⟩
    rw [List.countP_cons_of_pos rfl, ← h.escapes]
    rfl

theorem retract (h : Balanced space (.alternative hasMore next :: outer) ctx) :
    Balanced space outer (ctx.retract hasMore) := by
  cases hasMore with
  | false => exact ⟨h.seen, h.escapes, h.distinct, h.declared⟩
  | true  =>
    have he : ctx.escapes = outer.countP Frame.hasMore + 1 := h.escapes.trans (List.countP_cons_of_pos rfl)
    exact ⟨h.seen, congrArg Nat.pred he, h.distinct, h.declared⟩

-- Escapes are open if and only if a union around can still pick another member.
theorem escapes_pos_iff (h : Balanced space outer ctx) :
    0 < ctx.escapes ↔ ∃ frame ∈ outer, frame.hasMore := by
  rw [h.escapes, List.countP_pos_iff]

end Context.Balanced

namespace Moment

variable {m m' : Moment α}

theorem Moves.balanced (hm : Moves space m m') (h : m.context.Balanced space m.frames) :
    m'.context.Balanced space m'.frames := by
  cases hm with
  | look      => exact h
  | follow hr => exact h.follow hr
  | leave     => exact h.leave
  | attempt   => exact h.attempt
  | retract   => exact h.retract

theorem balanced_of_moves {traversal : Traversal α} (hm : ReflTransGen (Moves space) (start traversal) m) :
    m.context.Balanced space m.frames := by
  induction hm with
  | refl          => exact .empty
  | tail _ hm hi  => exact hm.balanced hi

-- At every moment of a traversal the names on the way are those that the calls around have added. A call
-- that starts there comes to its end with the context as it is. A name that it follows is unresolved if it
-- is not declared, a cycle if it is on the way already, and leads to its node otherwise.
theorem context_of_moves {traversal : Traversal α}
    (hm : ReflTransGen (Moves space) (start traversal) m) :
    (m.context.seen = Frame.names m.frames ∧ m.context.seen.Nodup ∧
      ∀ name ∈ m.context.seen, name ∈ space.names) ∧
    ∀ call next, m.rest = .call call next →
      (call.run space m.context).snd = m.context ∧
      ReflTransGen (Moves space) m ⟨m.frames, m.context, next (call.run space m.context).fst⟩ ∧
      ∀ name visit, call = .reference name visit →
        (m.context.reference space name = .unresolved ↔ name ∉ space.names) ∧
        ((∃ node cycle, m.context.reference space name = .cycle node cycle) ↔
          name ∈ space.names ∧ name ∈ m.context.seen) ∧
        ((∃ node inside, m.context.reference space name = .node node inside) ↔
          name ∈ space.names ∧ name ∉ m.context.seen) ∧
        ∀ node cycle, m.context.reference space name = .cycle node cycle →
          (cycle.kind = .avoidable ↔ ∃ frame ∈ m.frames, frame.hasMore) := by
  have hb := balanced_of_moves hm
  refine ⟨⟨hb.seen, hb.distinct, hb.declared⟩, fun call next hr => ⟨Call.snd_run _ _, ?behind, ?answer⟩⟩
  case behind =>
    obtain ⟨frames, ctx, rest⟩ := m
    cases hr
    have hc : ReflTransGen (Moves space) ⟨frames, ctx, .call call next⟩
        ⟨frames, (call.run space ctx).snd, next (call.run space ctx).fst⟩ := Call.moves_run ctx frames next call
    rwa [Call.snd_run] at hc
  case answer =>
    refine fun name visit _ => ⟨Context.reference_eq_unresolved_iff, Context.exists_cycle_iff,
      Context.exists_node_iff, fun node cycle hc => ?_⟩
    obtain ⟨_, _, rfl⟩ := Context.reference_eq_cycle_iff.mp hc
    rw [← hb.escapes_pos_iff]
    split <;> simp_all

-- The name `a` comes back behind `b`, inside of a union that can pick another member. The visit gives an
-- error, and the names and escapes are what they were before.
theorem context_of_moves_nested :
    ∃ (space : Declarations) (call : Call (Except String Unit)) (traversal : Traversal (Except String Unit))
        (m : Moment (Except String Unit)),
      ReflTransGen (Moves space) (start traversal) m ∧ m.rest = .call call .done ∧
      Frame.names m.frames = ["a", "b"] ∧ m.context.seen = ["a", "b"] ∧
      call.run space m.context = (.error "again", m.context) ∧
      ∃ node cycle, m.context.reference space "a" = .cycle node cycle ∧ cycle.kind = .avoidable := by
  let space : Declarations :=
    [⟨"a", .object [("b", .string "b")], .struct [("b", .reference "b")]⟩,
      ⟨"b", .object [("a", .string "a")], .struct [("a", .reference "a")]⟩]
  let call : Call (Except String Unit) := .reference "a" fun _ => .done (.error "again")
  let union : Call (Except String Unit) :=
    .alternative true (.call (.reference "b" fun _ => .call call .done) .done)
  let traversal : Traversal (Except String Unit) := .call (.reference "a" fun _ => .call union .done) .done
  have hm : ReflTransGen (Moves space) (start traversal)
      ⟨[.reference "b" (.node (.struct [("a", .reference "a")]) ⟨["a", "b"], 1⟩) .done, .alternative true .done,
        .reference "a" (.node (.struct [("b", .reference "b")]) ⟨["a"], 0⟩) .done], ⟨["a", "b"], 1⟩,
        .call call .done⟩ :=
    .tail (.tail (.tail .refl (.follow rfl)) .attempt) (.follow rfl)
  obtain ⟨⟨hs, _, _⟩, hc⟩ := context_of_moves hm
  obtain ⟨hr, _, ha⟩ := hc _ _ rfl
  obtain ⟨_, hy, _, hk⟩ := ha _ _ rfl
  obtain ⟨node, cycle, hy⟩ := hy.mpr ⟨by decide, by decide⟩
  refine ⟨space, call, traversal, _, hm, rfl, hs.symm, hs, Prod.ext rfl hr, node, cycle, hy, ?_⟩
  exact (hk node cycle hy).mpr ⟨.alternative true .done, by simp, rfl⟩

end Moment

end JsonShape
