import Mathlib
import JsonShape.Proofs.Typespace.Compiled
import JsonShape.Proofs.Typespace.Induction

namespace JsonShape

open Relation

-- The name stands in the node, with nothing but unions and optionals around it.
inductive Node.LeadsTo (name : String) : Node → Prop
  | reference : LeadsTo name (.reference name)
  | union     : (member ∈ members) → (LeadsTo name member) → LeadsTo name (.union members)
  | optional  : (LeadsTo name node) → LeadsTo name (.optional node)

namespace Declarations

-- The node of the first name leads to the second name.
def IsAlias (space : Declarations) (name other : String) : Prop :=
  ∃ node, space.resolve? name = some node ∧ node.LeadsTo other

-- Names that lead from a name back to itself. No other name, and not this one, is passed twice.
structure IsLoop (space : Declarations) (name : String) (path : List String) : Prop where
  head     : path.head? = some name
  last     : path.getLast? = some name
  length   : 2 ≤ path.length
  distinct : path.dropLast.Nodup
  chain    : path.IsChain space.IsAlias

variable {space : Declarations} {name other : String} {node : Node} {path : List String}

theorem IsLoop.transGen (h : space.IsLoop name path) : TransGen space.IsAlias name name := by
  cases path with
  | nil => cases h.head
  | cons first rest =>
    cases h.head
    cases rest with
    | nil => exact absurd h.length (by simp)
    | cons second others =>
      obtain ⟨ha, hc⟩ := List.isChain_cons_cons.mp h.chain
      have hl : (second :: others).getLast (List.cons_ne_nil _ _) = name := by
        have hl := h.last
        rw [List.getLast?_cons_cons, List.getLast?_eq_some_getLast (List.cons_ne_nil _ _)] at hl
        exact Option.some.inj hl
      exact .head' ha (List.relationReflTransGen_of_exists_isChain_cons others hc hl)

theorem IsLoop.mem_names (h : space.IsLoop name path) : name ∈ space.names := by
  obtain ⟨_, ⟨_, hr, _⟩, _⟩ := TransGen.head'_iff.mp h.transGen
  exact mem_names_of_resolve? hr

end Declarations

namespace AliasStep

variable {space : Declarations} {name other : String} {node : Node}

theorem of_leadsTo (h : node.LeadsTo name) : ReflTransGen (AliasStep space) (.reference name) node := by
  induction h with
  | reference       => exact .refl
  | union hm _ hi   => exact hi.tail (.member hm)
  | optional _ hi   => exact hi.tail .optional

theorem of_isAlias (h : space.IsAlias name other) :
    TransGen (AliasStep space) (.reference other) (.reference name) := by
  obtain ⟨node, hr, hl⟩ := h
  exact .tail' (of_leadsTo hl) (.reference hr)

theorem of_transGen_isAlias (h : TransGen space.IsAlias name other) :
    TransGen (AliasStep space) (.reference other) (.reference name) := by
  induction h with
  | single h      => exact of_isAlias h
  | tail _ h hi   => exact (of_isAlias h).trans hi

-- Where all chains of aliases end, no name comes back to itself.
theorem not_transGen_isAlias (h : WellFounded (AliasStep space)) :
    ¬TransGen space.IsAlias name name := by
  intro hn
  have hs := of_transGen_isAlias hn
  exact h.transGen.asymmetric _ _ hs hs

end AliasStep

namespace Context

-- Each name on the way is an alias of the next one, and the last one of all that the node leads to.
structure IsTrail (space : Declarations) (ctx : Context) (node : Node) : Prop where
  distinct : ctx.seen.Nodup
  chain    : ctx.seen.IsChain space.IsAlias
  leads    : ∀ last ∈ ctx.seen.getLast?, ∀ name, node.LeadsTo name → space.IsAlias last name

namespace IsTrail

variable {space : Declarations} {ctx : Context} {name : String} {node : Node}

theorem empty : IsTrail space {} node where
  distinct := .nil
  chain    := .nil
  leads    := by simp

theorem of_union {member : Node} {members : List Node} (h : IsTrail space ctx (.union members))
    (hm : member ∈ members) : IsTrail space ctx member where
  distinct := h.distinct
  chain    := h.chain
  leads    := fun last hl name hn => h.leads last hl name (.union hm hn)

theorem of_optional (h : IsTrail space ctx (.optional node)) : IsTrail space ctx node where
  distinct := h.distinct
  chain    := h.chain
  leads    := fun last hl name hn => h.leads last hl name (.optional hn)

theorem of_node {inside : Context} (h : IsTrail space ctx (.reference name))
    (hr : ctx.reference space name = .node node inside) : IsTrail space inside node := by
  obtain ⟨hs, hn, rfl⟩ := reference_eq_node_iff.mp hr
  constructor
  case distinct =>
    refine List.nodup_append.mpr ⟨h.distinct, List.nodup_singleton _, fun seen hm _ he hc => ?_⟩
    exact hn (List.mem_singleton.mp he ▸ hc ▸ hm)
  case chain =>
    refine List.isChain_append.mpr ⟨h.chain, .singleton _, fun last hl next hh => ?_⟩
    cases hh
    exact h.leads last hl name .reference
  case leads =>
    intro last hl other ho
    simp only [List.getLast?_append, List.getLast?_singleton, Option.some_or, Option.mem_def,
      Option.some.injEq] at hl
    exact hl ▸ ⟨node, hs, ho⟩

-- What lies in front of the first visit of the name is no part of the loop.
theorem isLoop {kind : CycleKind} (h : IsTrail space ctx (.reference name)) (hm : name ∈ ctx.seen) :
    space.IsLoop name (Cycle.loop ⟨name, ctx.seen, kind⟩) := by
  obtain ⟨before, after, hs, hn⟩ := List.eq_append_cons_of_mem hm
  have hl : Cycle.loop ⟨name, ctx.seen, kind⟩ = name :: after ++ [name] := by
    have hb : ∀ other ∈ before, decide (other ≠ name) = true :=
      fun other ho => decide_eq_true fun he => hn (he ▸ ho)
    simp only [Cycle.loop, hs]
    rw [List.dropWhile_append_of_pos hb]
    simp
  have hd := h.distinct
  have hc := h.chain
  rw [hs] at hd hc
  rw [hl]
  constructor
  case head     => rfl
  case last     => exact List.getLast?_concat
  case length   => simp
  case distinct => exact List.dropLast_concat ▸ (List.nodup_append.mp hd).right.left
  case chain =>
    refine List.isChain_append.mpr ⟨hc.right_of_append, .singleton _, fun last hl next hh => ?_⟩
    cases hh
    exact h.leads last (by simp_all) name .reference

end IsTrail

variable {space : Declarations} {ctx : Context} {node : Node} {cycle : Cycle}

theorem exists_of_memberAliasCycle? {members : List Node}
    (h : ctx.memberAliasCycle? space members = some cycle) :
    ∃ member ∈ members, ctx.aliasCycle? space member = some cycle := by
  induction members with
  | nil =>
    rw [memberAliasCycle?] at h
    cases h
  | cons first rest hi =>
    rw [memberAliasCycle?] at h
    split at h
    case h_1 hf =>
      cases h
      exact ⟨first, .head _, hf⟩
    case h_2 =>
      obtain ⟨member, hm, hc⟩ := hi h
      exact ⟨member, .tail _ hm, hc⟩

theorem isLoop_of_aliasCycle? (ht : IsTrail space ctx node) (h : ctx.aliasCycle? space node = some cycle) :
    space.IsLoop cycle.name cycle.loop := by
  induction ctx, node using Context.induction space with
  | reference ctx name hi =>
    rw [aliasCycle?] at h
    split at h
    case h_1 resolved inside hr => exact hi resolved inside hr (ht.of_node hr) h
    case h_2 hr =>
      cases h
      obtain ⟨_, hm, rfl⟩ := reference_eq_cycle_iff.mp hr
      exact ht.isLoop hm
    case h_3 => cases h
  | union ctx members hi =>
    rw [aliasCycle?] at h
    obtain ⟨member, hm, hc⟩ := exists_of_memberAliasCycle? h
    exact hi member hm false (ht.of_union hm) hc
  | optional ctx inner hi =>
    rw [aliasCycle?] at h
    exact hi ht.of_optional h
  | primitive | literal | list | tuple | struct =>
    simp [aliasCycle?] at h

end Context

theorem Declarations.isLoop_of_aliasCycle? {space : Declarations} {cycle : Cycle}
    (h : space.aliasCycle? = some cycle) : space.IsLoop cycle.name cycle.loop := by
  obtain ⟨name, _, hc⟩ := List.exists_of_findSome?_eq_some h
  exact Context.isLoop_of_aliasCycle? .empty hc

namespace Typespace

variable {raw : Members Json} {declarations : Declarations}

theorem compile_iff_no_alias_cycle (hn : ∀ name ∈ raw.names, isTypeName name ∧ ¬isReserved name)
    (hp : ∀ entry ∈ raw, ∃ node, Definition.parse raw.names.contains entry.snd = .ok node) :
    ∃ declarations, declare raw.names.contains raw = .ok declarations ∧
      ((∃ space, compile raw = .ok space ∧ space.declarations = declarations) ↔
        ∀ name ∈ raw.names, ¬TransGen declarations.IsAlias name name) ∧
      ∀ error, compile raw = .error error →
        ∃ name path, error = .aliasCycle name path ∧ declarations.IsLoop name path := by
  have hn := checkNames_eq_ok_iff.mpr hn
  obtain ⟨declarations, hd⟩ := exists_declare_iff.mpr hp
  refine ⟨declarations, hd, ?_⟩
  cases ha : declarations.aliasCycle? with
  | none =>
    have hw := AliasStep.wellFounded_of_aliasCycle? ha
    have hc : compile raw = .ok ⟨declarations, hw⟩ := compile_eq_ok_iff.mpr ⟨hn, hd, ha⟩
    refine ⟨⟨fun _ name _ => AliasStep.not_transGen_isAlias hw, fun _ => ⟨_, hc, rfl⟩⟩, fun error he => ?_⟩
    cases hc.symm.trans he
  | some cycle =>
    have hc := compile_of_aliasCycle? hn hd ha
    have hl := Declarations.isLoop_of_aliasCycle? ha
    refine ⟨⟨?mp, fun h => ?mpr⟩, fun error he => ?error⟩
    case mp =>
      rintro ⟨space, hs, _⟩
      cases hc.symm.trans hs
    case mpr =>
      have hm : cycle.name ∈ raw.names := names_of_declare hd ▸ hl.mem_names
      exact absurd hl.transGen (h cycle.name hm)
    case error =>
      cases hc.symm.trans he
      exact ⟨cycle.name, cycle.loop, rfl, hl⟩

-- The search starts at a name that leads to a loop and is no part of it.
theorem compile_iff_no_alias_cycle_detour :
    ∃ raw : Members Json,
      (∀ name ∈ raw.names, isTypeName name ∧ ¬isReserved name) ∧
      (∀ entry ∈ raw, ∃ node, Definition.parse raw.names.contains entry.snd = .ok node) ∧
      compile raw = .error (.aliasCycle "b" ["b", "c", "b"]) ∧
      ∃ declarations, declare raw.names.contains raw = .ok declarations ∧
        ((∃ space, compile raw = .ok space ∧ space.declarations = declarations) ↔
          ∀ name ∈ raw.names, ¬TransGen declarations.IsAlias name name) ∧
        ∀ error, compile raw = .error error →
          ∃ name path, error = .aliasCycle name path ∧ declarations.IsLoop name path := by
  let raw : Members Json := [("a", .string "b"), ("b", .string "'x'|c"), ("c", .string "b?")]
  let declarations : Declarations :=
    [⟨"a", .string "b", .reference "b"⟩,
      ⟨"b", .string "'x'|c", .union [.literal (.string "x"), .reference "c"]⟩,
      ⟨"c", .string "b?", .optional (.reference "b")⟩]
  have hd : declare raw.names.contains raw = .ok declarations := by cbv
  have ha : declarations.aliasCycle? = some ⟨"b", ["a", "b", "c"], .required⟩ := by cbv
  have hn : checkNames raw.names = .ok () := by decide
  have hp := exists_declare_iff.mp ⟨declarations, hd⟩
  exact ⟨raw, checkNames_eq_ok_iff.mp hn, hp, compile_of_aliasCycle? hn hd ha,
    compile_iff_no_alias_cycle (checkNames_eq_ok_iff.mp hn) hp⟩

end Typespace

end JsonShape
