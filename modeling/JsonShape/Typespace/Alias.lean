import JsonShape.Typespace.Context

namespace JsonShape

-- The first node takes the place of the second one.
inductive AliasStep (space : Declarations) : Node → Node → Prop
  | reference : (space.resolve? name = some node) → AliasStep space node (.reference name)
  | member    : (member ∈ members) → AliasStep space member (.union members)
  | optional  : AliasStep space node (.optional node)

namespace Cycle

-- The names from the first visit of the name to the second one.
def loop (cycle : Cycle) : List String :=
  cycle.seen.dropWhile (· ≠ cycle.name) ++ [cycle.name]

end Cycle

namespace Context

mutual

-- The first cycle among the aliases of a node.
def aliasCycle? (space : Declarations) (ctx : Context) (node : Node) : Option Cycle :=
  match node with
  | .reference name =>
    match h : ctx.reference space name with
    | .node resolved inside =>
      have := unseen_lt h
      aliasCycle? space inside resolved
    | .cycle _ cycle => some cycle
    | .unresolved => none
  | .union members => memberAliasCycle? space ctx members
  | .optional inner => aliasCycle? space ctx inner
  | _ => none
termination_by (ctx.unseen space, sizeOf node)

def memberAliasCycle? (space : Declarations) (ctx : Context) (members : List Node) : Option Cycle :=
  match members with
  | [] => none
  | member :: rest =>
    match aliasCycle? space ctx member with
    | some cycle => some cycle
    | none => memberAliasCycle? space ctx rest
termination_by (ctx.unseen space, sizeOf members)

end

end Context

def Declarations.aliasCycle? (space : Declarations) : Option Cycle :=
  space.names.findSome? fun name => Context.aliasCycle? space {} (.reference name)

namespace AliasStep

variable {space : Declarations} {ctx : Context}

theorem acc_reference_of_unresolved {name : String} (h : space.resolve? name = none) :
    Acc (AliasStep space) (.reference name) :=
  .intro _ fun
    | _, .reference hr => by simp [h] at hr

theorem acc_reference {name : String} {node : Node} (h : space.resolve? name = some node)
    (ha : Acc (AliasStep space) node) : Acc (AliasStep space) (.reference name) :=
  .intro _ fun
    | _, .reference hr => by simp_all

theorem acc_union {members : List Node} (h : ∀ member ∈ members, Acc (AliasStep space) member) :
    Acc (AliasStep space) (.union members) :=
  .intro _ fun
    | _, .member hm => h _ hm

theorem acc_optional {inner : Node} (h : Acc (AliasStep space) inner) :
    Acc (AliasStep space) (.optional inner) :=
  .intro _ fun
    | _, .optional => h

mutual

-- Every chain from a node ends if the search from there finds no cycle.
theorem acc_of_aliasCycle? (ctx : Context) (node : Node)
    (h : ctx.aliasCycle? space node = none) : Acc (AliasStep space) node := by
  cases node with
  | reference name =>
    rw [Context.aliasCycle?] at h
    split at h
    · next resolved inside hr =>
      have := Context.unseen_lt hr
      exact acc_reference (Context.reference_eq_node_iff.mp hr).1 (acc_of_aliasCycle? inside resolved h)
    · cases h
    · next hr =>
      exact acc_reference_of_unresolved
        (Declarations.resolve?_eq_none_iff.mpr (Context.reference_eq_unresolved_iff.mp hr))
  | union members =>
    rw [Context.aliasCycle?] at h
    exact acc_union (acc_of_memberAliasCycle? ctx members h)
  | optional inner =>
    rw [Context.aliasCycle?] at h
    exact acc_optional (acc_of_aliasCycle? ctx inner h)
  | _ => exact .intro _ nofun
termination_by (ctx.unseen space, sizeOf node)

theorem acc_of_memberAliasCycle? (ctx : Context) (members : List Node)
    (h : ctx.memberAliasCycle? space members = none) :
    ∀ member ∈ members, Acc (AliasStep space) member := by
  cases members with
  | nil => nofun
  | cons first rest =>
    rw [Context.memberAliasCycle?] at h
    split at h
    · cases h
    · next hf =>
      intro member hm
      rcases List.mem_cons.mp hm with he | hm
      · exact he ▸ acc_of_aliasCycle? ctx first hf
      · exact acc_of_memberAliasCycle? ctx rest h member hm
termination_by (ctx.unseen space, sizeOf members)

end

theorem acc_of_aliasCycle?_eq_none (h : space.aliasCycle? = none) (node : Node) :
    Acc (AliasStep space) node :=
  match node with
  | .reference name => by
    cases hr : space.resolve? name with
    | none => exact acc_reference_of_unresolved hr
    | some resolved =>
      rw [Declarations.aliasCycle?, List.findSome?_eq_none_iff] at h
      exact acc_of_aliasCycle? {} _ (h name (Declarations.mem_names_of_resolve? hr))
  | .union members => acc_union fun member _ => acc_of_aliasCycle?_eq_none h member
  | .optional inner => acc_optional (acc_of_aliasCycle?_eq_none h inner)
  | .primitive _ | .literal _ | .list _ | .tuple _ | .struct _ => .intro _ nofun

theorem wellFounded_of_aliasCycle? (h : space.aliasCycle? = none) : WellFounded (AliasStep space) :=
  ⟨acc_of_aliasCycle?_eq_none h⟩

end AliasStep

end JsonShape
