import Mathlib
import JsonShape.Proofs.References.Walk
import JsonShape.Proofs.Validation.CallDepth

namespace JsonShape

namespace Context

-- From the second visit a walk may go on to the first one.
inductive GoesOn (space : Declarations) : Context × Node → Context × Node → Prop
  | child     : child ∈ node.children → inside.seen = ctx.seen → GoesOn space (inside, child) (ctx, node)
  | reference : (ctx.reference space name = .node node inside) →
      GoesOn space (inside, node) (ctx, .reference name)

-- How many declarations are not on the way of a visit, and the size of its node.
noncomputable def extent (space : Declarations) (visit : Context × Node) : Nat × Nat :=
  (visit.fst.unseen space, sizeOf visit.snd)

-- How deep visits may be nested from here: for each name that is not on the way, there is one more node to go
-- through.
def visitDepth (space : Declarations) (visit : Context × Node) : Nat :=
  visit.fst.unseen space * (space.depth + 1) + visit.snd.depth

-- The walk with this step, as long as its visits are nested no deeper than this. The others give nothing but
-- the bottom.
def nested {β : Type} (step : (Context → Node → β) → Context → Node → β) (bottom : β) :
    Nat → Context → Node → β
  | 0, _, _ => bottom
  | visits + 1, ctx, node => step (nested step bottom visits) ctx node

-- The step gives what the walk gives, if the visits that it goes on to do.
def Descends {β : Type} (space : Declarations) (step : (Context → Node → β) → Context → Node → β)
    (walk : Context → Node → β) : Prop :=
  ∀ visit ctx node,
    (∀ inside other, GoesOn space (inside, other) (ctx, node) → visit inside other = walk inside other) →
    step visit ctx node = walk ctx node

-- The step makes the walk, and the walk comes to its end.
structure Ends {β : Type} (space : Declarations) (step : (Context → Node → β) → Context → Node → β)
    (bottom : β) (walk : Context → Node → β) : Prop where
  descends : Descends space step walk
  nested   : ∀ visits ctx node, visitDepth space (ctx, node) < visits →
    nested step bottom visits ctx node = walk ctx node

end Context

theorem Node.depth_child_lt {child node : Node} (h : child ∈ node.children) : child.depth < node.depth := by
  cases node with
  | primitive | literal | reference => cases h
  | list | optional =>
    cases List.mem_singleton.mp h
    exact Nat.lt_succ_self _
  | tuple | union => exact Nat.lt_succ_of_le (depth_le_partsDepth h)
  | struct =>
    obtain ⟨member, hm, rfl⟩ := List.mem_map.mp h
    exact Nat.lt_succ_of_le (depth_le_fieldsDepth hm)

namespace Context

variable {space : Declarations} {ctx : Context} {node : Node} {last next : Context × Node}

theorem unseen_congr {inside : Context} (h : inside.seen = ctx.seen) :
    inside.unseen space = ctx.unseen space := by
  rw [unseen, unseen, h]

namespace GoesOn

theorem extent_lt (h : GoesOn space next last) :
    Prod.Lex (· < ·) (· < ·) (extent space next) (extent space last) := by
  cases h with
  | child hc hs =>
    rw [extent, extent, unseen_congr hs]
    exact .right _ (Node.sizeOf_child_lt hc)
  | reference hr => exact .left _ _ (unseen_lt hr)

theorem visitDepth_lt (h : GoesOn space next last) : visitDepth space next < visitDepth space last := by
  cases h with
  | child hc hs =>
    rw [visitDepth, visitDepth, unseen_congr hs]
    exact Nat.add_lt_add_left (Node.depth_child_lt hc) _
  | reference hr =>
    have hd := Declarations.depth_le_of_resolve? (reference_eq_node_iff.mp hr).left
    exact Validation.digits_lt (unseen_lt hr) (Nat.lt_succ_of_le hd)

theorem wellFounded (space : Declarations) : WellFounded (GoesOn space) :=
  Subrelation.wf extent_lt (InvImage.wf (extent space) (WellFounded.prod_lex wellFounded_lt wellFounded_lt))

end GoesOn

theorem Descends.ends {β : Type} {step : (Context → Node → β) → Context → Node → β}
    {walk : Context → Node → β} (h : Descends space step walk) (bottom : β) :
    Ends space step bottom walk where
  descends := h
  nested   := by
    intro visits
    induction visits with
    | zero => exact fun _ _ hd => absurd hd (Nat.not_lt_zero _)
    | succ visits hi =>
      intro ctx node hd
      refine h _ ctx node fun inside other hg => hi inside other ?_
      exact Nat.lt_of_lt_of_le hg.visitDepth_lt (Nat.le_of_lt_succ hd)

end Context

end JsonShape
