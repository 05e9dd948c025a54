import Mathlib
import JsonShape.Proofs.Typespace.AliasCycles

namespace JsonShape

open Relation

-- The node leads to the first of these names, and each name is an alias of the next one.
structure Node.IsAliasChain (space : Declarations) (node : Node) (path : List String) : Prop where
  leads    : ∀ first ∈ path.head?, node.LeadsTo first
  chain    : path.IsChain space.IsAlias
  declared : ∀ name ∈ path, name ∈ space.names

namespace Node.IsAliasChain

variable {space : Declarations} {name : String} {node : Node} {path : List String}

theorem nil : IsAliasChain space node [] where
  leads    := by simp
  chain    := .nil
  declared := by simp

theorem reference (hr : space.resolve? name = some node) (h : IsAliasChain space node path) :
    IsAliasChain space (.reference name) (name :: path) where
  leads first hf := by
    cases hf
    exact .reference
  chain    := List.isChain_cons.mpr ⟨fun first hf => ⟨node, hr, h.leads first hf⟩, h.chain⟩
  declared := List.forall_mem_cons.mpr ⟨Declarations.mem_names_of_resolve? hr, h.declared⟩

theorem union {member : Node} {members : List Node} (hm : member ∈ members)
    (h : IsAliasChain space member path) : IsAliasChain space (.union members) path where
  leads    := fun first hf => .union hm (h.leads first hf)
  chain    := h.chain
  declared := h.declared

theorem optional (h : IsAliasChain space node path) : IsAliasChain space (.optional node) path where
  leads    := fun first hf => .optional (h.leads first hf)
  chain    := h.chain
  declared := h.declared

theorem nodup (hw : WellFounded (AliasStep space)) (h : IsAliasChain space node path) : path.Nodup := by
  have hc : path.IsChain (TransGen space.IsAlias) := h.chain.imp fun _ _ => .single
  have hp : path.Pairwise (TransGen space.IsAlias) := List.isChain_iff_pairwise.mp hc
  refine hp.imp fun hn he => ?_
  exact AliasStep.not_transGen_isAlias hw (he ▸ hn)

theorem length_le (hw : WellFounded (AliasStep space)) (h : IsAliasChain space node path) :
    path.length ≤ space.names.length :=
  (List.subperm_of_subset (h.nodup hw) h.declared).length_le

end Node.IsAliasChain

namespace Typespace

variable {space : Typespace} {node : Node}

theorem aliasHeight_reference {name : String} (h : space.resolve? name = some node) :
    space.aliasHeight (.reference name) = space.aliasHeight node + 1 := by
  rw [aliasHeight]
  split
  case h_1 hr =>
    cases h.symm.trans hr
    rfl
  case h_2 hr => cases h.symm.trans hr

-- No member of a union is higher than the union, and one is as high as the union is.
theorem aliasHeight_le_of_mem {member : Node} {members : List Node} (h : member ∈ members) :
    space.aliasHeight member ≤ space.aliasHeight (.union members) := by
  induction h with
  | head rest =>
    rw [aliasHeight_union_cons]
    exact Nat.le_max_left ..
  | tail first _ hi =>
    rw [aliasHeight_union_cons]
    exact Nat.le_trans hi (Nat.le_max_right ..)

theorem exists_mem_of_aliasHeight_union {members : List Node}
    (h : 0 < space.aliasHeight (.union members)) :
    ∃ member ∈ members, space.aliasHeight member = space.aliasHeight (.union members) := by
  induction members with
  | nil =>
    rw [aliasHeight] at h
    cases h
  | cons first rest hi =>
    rw [aliasHeight_union_cons] at h ⊢
    rcases Nat.le_total (space.aliasHeight (.union rest)) (space.aliasHeight first) with hl | hl
    case inl =>
      rw [Nat.max_eq_left hl]
      exact ⟨first, .head _, rfl⟩
    case inr =>
      rw [Nat.max_eq_right hl] at h ⊢
      obtain ⟨member, hm, he⟩ := hi h
      exact ⟨member, .tail _ hm, he⟩

theorem exists_isAliasChain (space : Typespace) (node : Node) :
    ∃ path, path.length = space.aliasHeight node ∧ node.IsAliasChain space.declarations path := by
  induction node using space.wellFounded.induction
  case _ node hi =>
    cases node with
    | reference name =>
      cases hr : space.resolve? name with
      | none =>
        refine ⟨[], ?_, .nil⟩
        rw [aliasHeight]
        split <;> simp_all
      | some resolved =>
        obtain ⟨path, hl, hp⟩ := hi resolved (.reference hr)
        exact ⟨name :: path, by rw [aliasHeight_reference hr, ← hl, List.length_cons], .reference hr hp⟩
    | union members =>
      rcases Nat.eq_zero_or_pos (space.aliasHeight (.union members)) with hz | hz
      case inl => exact ⟨[], hz.symm, .nil⟩
      case inr =>
        obtain ⟨member, hm, he⟩ := exists_mem_of_aliasHeight_union hz
        obtain ⟨path, hl, hp⟩ := hi member (.member hm)
        exact ⟨path, hl.trans he, .union hm hp⟩
    | optional inner =>
      obtain ⟨path, hl, hp⟩ := hi inner .optional
      exact ⟨path, by rw [hl, aliasHeight_optional], .optional hp⟩
    | primitive | literal | list | tuple | struct => exact ⟨[], by simp [aliasHeight], .nil⟩

theorem aliasHeight_le_length (space : Typespace) (node : Node) :
    space.aliasHeight node ≤ space.names.length := by
  obtain ⟨path, hl, hp⟩ := space.exists_isAliasChain node
  exact hl ▸ hp.length_le space.wellFounded

end Typespace

end JsonShape
