import JsonShape.Typespace.Declarations

namespace JsonShape

structure Context where
  -- The names on the way, the first one entered in front.
  seen : List String := []
  escapes : Nat := 0
deriving DecidableEq

inductive CycleKind
  | avoidable
  | required
deriving DecidableEq

structure Cycle where
  name : String
  seen : List String
  kind : CycleKind
deriving DecidableEq

-- What following a name leads to.
inductive Step
  -- The name is new on the way. Its node is visited in a context that has it.
  | node (node : Node) (inside : Context)
  | cycle (node : Node) (cycle : Cycle)
  | unresolved

namespace Context

variable {space : Declarations} {ctx inside : Context} {name : String} {node : Node} {cycle : Cycle}

def reference (space : Declarations) (ctx : Context) (name : String) : Step :=
  match space.resolve? name with
  | none => .unresolved
  | some node =>
    if name ∈ ctx.seen then
      .cycle node
        { name, seen := ctx.seen, kind := if 0 < ctx.escapes then .avoidable else .required }
    else .node node { ctx with seen := ctx.seen ++ [name] }

-- The context for one member of a union. Another member can be picked if there are more.
def alternative (ctx : Context) (hasMore : Bool) : Context :=
  if hasMore then { ctx with escapes := ctx.escapes + 1 } else ctx

theorem seen_alternative (hasMore : Bool) : (ctx.alternative hasMore).seen = ctx.seen := by
  cases hasMore <;> rfl

theorem reference_eq_unresolved_iff :
    ctx.reference space name = .unresolved ↔ name ∉ space.names := by
  rw [← Declarations.resolve?_eq_none_iff]
  simp only [reference]
  split
  · simp_all
  · split <;> simp_all

theorem reference_eq_node_iff :
    ctx.reference space name = .node node inside ↔
      space.resolve? name = some node ∧ name ∉ ctx.seen ∧
        inside = { ctx with seen := ctx.seen ++ [name] } := by
  cases hr : space.resolve? name
  · simp [reference, hr]
  · by_cases hs : name ∈ ctx.seen <;> simp [reference, hr, hs, eq_comm]

theorem reference_eq_cycle_iff :
    ctx.reference space name = .cycle node cycle ↔
      space.resolve? name = some node ∧ name ∈ ctx.seen ∧
        cycle = ⟨name, ctx.seen, if 0 < ctx.escapes then .avoidable else .required⟩ := by
  cases hr : space.resolve? name
  · simp [reference, hr]
  · by_cases hs : name ∈ ctx.seen <;> simp [reference, hr, hs, eq_comm]

-- How many declarations are not on the way yet.
def unseen (space : Declarations) (ctx : Context) : Nat :=
  (space.names.filter (· ∉ ctx.seen)).length

theorem unseen_alternative (hasMore : Bool) :
    (ctx.alternative hasMore).unseen space = ctx.unseen space := by
  simp [unseen, seen_alternative]

theorem unseen_lt (h : ctx.reference space name = .node node inside) :
    inside.unseen space < ctx.unseen space := by
  obtain ⟨hr, hn, rfl⟩ := reference_eq_node_iff.mp h
  have hm : name ∈ space.names.filter (· ∉ ctx.seen) :=
    List.mem_filter.mpr ⟨Declarations.mem_names_of_resolve? hr, by simpa using hn⟩
  have he : space.names.filter (· ∉ ctx.seen ++ [name]) =
      (space.names.filter (· ∉ ctx.seen)).filter (· ≠ name) := by
    rw [List.filter_filter]
    exact List.filter_congr fun x _ => by simp [and_comm]
  simp only [unseen, he]
  exact List.length_filter_lt_length_iff_exists.mpr ⟨name, hm, by simp⟩

end Context

end JsonShape
