import JsonShape.Proofs.Typespace.Closed
import JsonShape.Proofs.Typespace.Induction

namespace JsonShape

namespace Context

-- A walk that is at the node can come to the goal, where it has the last context. A cycle is gone
-- through by some walks and ends others, and only some walks count the members of a union.
inductive ComesTo (space : Declarations) (last : Context) (goal : Node) : Context → Node → Prop
  | here   : ComesTo space last goal last goal
  | child  : (child ∈ node.children) → (ComesTo space last goal ctx child) → ComesTo space last goal ctx node
  | member : (member ∈ members) → (ComesTo space last goal (ctx.alternative hasMore) member) →
      ComesTo space last goal ctx (.union members)
  | node   : (ctx.reference space name = .node node inside) → (ComesTo space last goal inside node) →
      ComesTo space last goal ctx (.reference name)
  | cycle  : (ctx.reference space name = .cycle node cycle) → (ComesTo space last goal ctx node) →
      ComesTo space last goal ctx (.reference name)

-- Wherever a walk can come to a name, the other declarations give the same answer.
def SameAnswers (space other : Declarations) (ctx : Context) (node : Node) : Prop :=
  ∀ last name, ComesTo space last (.reference name) ctx node →
    last.reference other name = last.reference space name

variable {space other : Declarations} {ctx last : Context} {node goal : Node} {name : String}

theorem ComesTo.reaches (h : ComesTo space last goal ctx node) : Node.Reaches space goal node := by
  induction h with
  | here            => exact .part .self
  | child hc _ hi   => exact hi.within (.child hc .self)
  | member hm _ hi  => exact hi.within (.union hm .self)
  | node hr _ hi    => exact .name .self (reference_eq_node_iff.mp hr).left hi
  | cycle hr _ hi   => exact .name .self (reference_eq_cycle_iff.mp hr).left hi

namespace SameAnswers

theorem of_resolve? (h : ∀ name, Node.Reaches space (.reference name) node →
    other.resolve? name = space.resolve? name) : SameAnswers space other ctx node := by
  intro last name hc
  simp only [reference, h name hc.reaches]

theorem reference_eq (h : SameAnswers space other ctx (.reference name)) :
    ctx.reference other name = ctx.reference space name :=
  h ctx name .here

theorem child {part : Node} (h : SameAnswers space other ctx node) (hc : part ∈ node.children) :
    SameAnswers space other ctx part :=
  fun last name hn => h last name (.child hc hn)

theorem member {members : List Node} (h : SameAnswers space other ctx (.union members)) (hm : node ∈ members)
    (hasMore : Bool) : SameAnswers space other (ctx.alternative hasMore) node :=
  fun last name hn => h last name (.member hm hn)

theorem required (h : SameAnswers space other ctx node) : SameAnswers space other ctx node.required := by
  cases node with
  | optional inner => exact h.child (.head _)
  | _              => exact h

theorem inside {within : Context} (h : SameAnswers space other ctx (.reference name))
    (hr : ctx.reference space name = .node node within) : SameAnswers space other within node :=
  fun last name hn => h last name (.node hr hn)

theorem resolve?_eq (h : SameAnswers space other ctx (.reference name)) :
    other.resolve? name = space.resolve? name := by
  have ha := h.reference_eq
  cases hr : space.resolve? name with
  | none =>
    rw [reference_eq_unresolved_iff.mpr (Declarations.resolve?_eq_none_iff.mp hr)] at ha
    exact Declarations.resolve?_eq_none_iff.mpr (reference_eq_unresolved_iff.mp ha)
  | some node =>
    by_cases hs : name ∈ ctx.seen
    case pos =>
      rw [reference_eq_cycle_iff.mpr ⟨hr, hs, rfl⟩] at ha
      exact (reference_eq_cycle_iff.mp ha).left
    case neg =>
      rw [reference_eq_node_iff.mpr ⟨hr, hs, rfl⟩] at ha
      exact (reference_eq_node_iff.mp ha).left

theorem entering (h : SameAnswers space other ctx (.reference name)) (hr : space.resolve? name = some node) :
    SameAnswers space other (ctx.entering name) node := by
  rw [Context.entering]
  split
  case isTrue hs  =>
    exact fun last name hn => h last name (.cycle (reference_eq_cycle_iff.mpr ⟨hr, hs, rfl⟩) hn)
  case isFalse hs => exact h.inside (reference_eq_node_iff.mpr ⟨hr, hs, rfl⟩)

end SameAnswers

end Context

theorem Typespace.Compiled.reference_ne_unresolved {space : Typespace} (hc : space.Compiled) {node : Node}
    (hw : node.WellFormed space.isDeclared) {ctx last : Context} {name : String}
    (h : Context.ComesTo space.declarations last (.reference name) ctx node) :
    last.reference space.declarations name ≠ .unresolved :=
  fun hu => Context.reference_eq_unresolved_iff.mp hu (hc.mem_names_of_reaches hw h.reaches)

end JsonShape
