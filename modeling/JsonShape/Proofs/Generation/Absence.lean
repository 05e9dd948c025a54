import Mathlib
import JsonShape.Proofs.Generation.Completeness

namespace JsonShape

open Relation Synthesis Validation

-- Each name on the way stands for the node, with nothing but unions and optionals in between.
def Context.IsAliasWay (space : Typespace) (ctx : Context) (node : Node) : Prop :=
  ∀ name ∈ ctx.seen, TransGen (AliasStep space.declarations) node (.reference name)

namespace Context.IsAliasWay

variable {space : Typespace} {ctx : Context} {node other : Node} {name : String}

theorem empty : IsAliasWay space {} node := by
  simp [IsAliasWay]

theorem step (h : ctx.IsAliasWay space node) (hs : AliasStep space.declarations other node) :
    ctx.IsAliasWay space other :=
  fun name hm => .head hs (h name hm)

theorem alternative (h : ctx.IsAliasWay space node) (hasMore : Bool) :
    (ctx.alternative hasMore).IsAliasWay space node := by
  rw [IsAliasWay, seen_alternative]
  exact h

-- No name on such a way is met again.
theorem exists_inside (h : ctx.IsAliasWay space (.reference name))
    (hr : space.resolve? name = some node) :
    ∃ inside, ctx.reference space.declarations name = .node node inside ∧
      inside.IsAliasWay space node := by
  have hn : name ∉ ctx.seen := by
    intro hm
    exact space.wellFounded.transGen.asymmetric _ _ (h name hm) (h name hm)
  refine ⟨_, reference_eq_node_iff.mpr ⟨hr, hn, rfl⟩, fun other hm => ?_⟩
  simp only [List.mem_append, List.mem_singleton] at hm
  rcases hm with hm | rfl
  · exact h.step (.reference hr) other hm
  · exact .single (.reference hr)

end Context.IsAliasWay

section Failure

variable {space : Typespace} {substitute : Option Json} {ctx : Context} {node : Node} {halt : Halt}

-- No optional stands for the node.
def Node.IsDefinite (space : Typespace) (node : Node) : Prop :=
  ∀ inner, ¬ReflTransGen (AliasStep space.declarations) (.optional inner) node

theorem Node.IsDefinite.step {other : Node} (h : node.IsDefinite space)
    (hs : AliasStep space.declarations other node) : other.IsDefinite space :=
  fun inner hl => h inner (hl.tail hs)

theorem isRequiredCycle_of_admitsAbsence (hw : ctx.IsAliasWay space node)
    (hn : node.IsDefinite space) (h : AdmitsAbsence space node)
    (he : ofNode space.declarations substitute ctx node = .error halt) : halt.IsRequiredCycle := by
  induction h generalizing ctx halt with
  | optional => exact absurd .refl (hn _)
  | @primitive keyword hk =>
    rw [ofNode] at he
    cases keyword <;> cases Keyword.admitsAbsence_iff.mpr hk <;> cases he
  | reference hr _ hi =>
    obtain ⟨inside, hc, hw⟩ := hw.exists_inside hr
    rw [ofNode_reference_of_node hc] at he
    exact hi hw (hn.step (.reference hr)) he
  | union hm _ hi =>
    rw [ofNode] at he
    refine isRequiredCycle_of_ofUnion (.inr ⟨_, hm, fun hasMore halt he => ?_⟩) he
    exact hi ((hw.step (.member hm)).alternative hasMore) (hn.step (.member hm)) he

-- A failure comes from a union that stands for the node, and from a name at the end of it.
theorem exists_last_of_admitsAbsence (hc : space.Compiled) (hf : node.WellFormed space.isDeclared)
    (hw : ctx.IsAliasWay space node) (hn : node.IsDefinite space) (h : AdmitsAbsence space node)
    (he : ofNode space.declarations substitute ctx node = .error halt) :
    ∃ members name, ReflTransGen (AliasStep space.declarations) (.union members) node ∧
      members.getLast? = some (.reference name) ∧ ¬AdmitsAbsence space (.reference name) := by
  induction node using space.wellFounded.induction generalizing ctx halt
  case _ node hi =>
    -- A failure of a node that this one stands for is traced back there.
    have hb {other : Node} {inside : Context} (hs : AliasStep space.declarations other node)
        (hf : other.WellFormed space.isDeclared) (hw : inside.IsAliasWay space other)
        (h : AdmitsAbsence space other)
        (he : ofNode space.declarations substitute inside other = .error halt) :
        ∃ members name, ReflTransGen (AliasStep space.declarations) (.union members) node ∧
          members.getLast? = some (.reference name) ∧ ¬AdmitsAbsence space (.reference name) := by
      obtain ⟨members, name, hl, hm⟩ := hi other hs hf hw (hn.step hs) h he
      exact ⟨members, name, hl.tail hs, hm⟩
    have hq := isRequiredCycle_of_admitsAbsence hw hn h he
    cases h with
    | optional => exact absurd .refl (hn _)
    | @primitive keyword hk =>
      rw [ofNode] at he
      cases keyword <;> cases Keyword.admitsAbsence_iff.mpr hk <;> cases he
    | reference hr h =>
      obtain ⟨inside, hs, hw⟩ := hw.exists_inside hr
      rw [ofNode_reference_of_node hs] at he
      exact hb (.reference hr) (hc.wellFormed_of_resolve? hr) hw h he
    | @union members _ hm h =>
      rw [ofNode] at he
      have hu : ¬∃ definition reason, halt = .failed (.ungeneratable definition reason) := by
        rintro ⟨_, _, rfl⟩
        exact Bool.false_ne_true hq
      obtain ⟨last, hl, he⟩ := (last_of_ofUnion (by simp) he).resolve_left hu
      have hm := List.mem_of_getLast? hl
      cases hf.of_union last hm with
      | @primitive keyword =>
        rw [ofNode] at he
        cases keyword <;> cases he <;> cases hq
      | literal | list =>
        rw [ofNode] at he
        cases he
      | @reference name hd =>
        by_cases ha : AdmitsAbsence space (.reference name)
        case pos =>
          have hw := (hw.step (.member hm)).alternative false
          exact hb (.member hm) (.expression (.reference hd)) hw ha he
        case neg => exact ⟨members, name, .refl, hl, ha⟩
      | union => exact absurd rfl (hf.flat_of_union _ hm)

-- Some union that stands for the node ends with a name that has neither a value nor absence.
def Node.HasBarrenEnd (space : Typespace) (node : Node) : Prop :=
  ∃ members name, ReflTransGen (AliasStep space.declarations) (.union members) node ∧
    members.getLast? = some (.reference name) ∧ ¬AdmitsAbsence space (.reference name) ∧
    ∀ depth, ¬Productive space.declarations depth (.reference name)

-- A value for one that stands for the node is a value for the node.
theorem exists_of_aliasSteps {other : Node} {depth : Nat} (h : Productive space.declarations depth other)
    (hs : ReflTransGen (AliasStep space.declarations) other node) :
    ∃ value, ofNode space.declarations substitute {} node = .ok (some value) := by
  have hp : ∃ depth, Productive space.declarations depth node := by
    induction hs with
    | refl => exact ⟨depth, h⟩
    | tail _ hs hi =>
      obtain ⟨depth, h⟩ := hi
      exact h.exists_of_aliasStep hs
  obtain ⟨depth, hp⟩ := hp
  exact exists_of_productive hp fun _ hm => absurd hm List.not_mem_nil

theorem hasBarrenEnd_of_admitsAbsence (hc : space.Compiled) (hf : node.WellFormed space.isDeclared)
    (hn : node.IsDefinite space) (h : AdmitsAbsence space node)
    (he : ofNode space.declarations substitute {} node = .error halt) : node.HasBarrenEnd space := by
  obtain ⟨members, name, hs, hl, ha⟩ := exists_last_of_admitsAbsence hc hf .empty hn h he
  refine ⟨members, name, hs, hl, ha, fun depth hp => ?_⟩
  obtain ⟨value, hv⟩ := exists_of_aliasSteps (.union (List.mem_of_getLast? hl) hp) hs
  cases hv.symm.trans he

end Failure

section Generate

variable {space : Typespace} {node : Node}

theorem generate_of_missing {raw definition : Json} {key : String} {options : ValidateOptions}
    (hs : Typespace.ofJson raw = .ok space) (hp : space.parse definition = .ok node)
    (hn : ¬node.isOptional → ∀ inner, ReflTransGen (AliasStep space.declarations) (.optional inner) node →
      ∃ depth, Productive space.declarations depth inner)
    (hv : validate space options (.struct [(key, node)]) (.object []) = []) :
    (∀ substitute, ∃ value,
      generate space { onRequiredCycle := some substitute } (.struct [(key, node)]) = .ok value) ∧
    ((∃ value, generate space {} (.struct [(key, node)]) = .ok value) ∨
      ∃ error, generate space {} (.struct [(key, node)]) = .error error ∧ error.isRequiredCycle ∧
        node.HasBarrenEnd space) := by
  have ha : AdmitsAbsence space node := by
    obtain ⟨entries, he, hm, _⟩ := accepts_struct.mp hv
    cases he
    exact admitsAbsence_of_acceptsAbsence ((hm _ (.head _)).absent rfl)
  -- An object fails as its member does, which then is not optional and has no value.
  have hm {substitute : Option Json} {halt : Halt}
      (h : ofMembers space.declarations substitute {} [(key, node)] = .error halt) :
      node.IsDefinite space ∧ ofNode space.declarations substitute {} node = .error halt := by
    obtain ⟨member, hm, ho, he⟩ := ofMembers_eq_error h
    cases List.mem_singleton.mp hm
    refine ⟨fun inner hs => ?_, he⟩
    obtain ⟨depth, hp⟩ := hn ho inner hs
    obtain ⟨value, hv⟩ := exists_of_aliasSteps (.optional hp) hs
    cases hv.symm.trans he
  constructor
  case left =>
    intro substitute
    cases h : ofMembers space.declarations (some substitute) {} [(key, node)] with
    | ok entries => exact ⟨.object entries, by simp only [generate, ofNode_struct, h, Except.map]⟩
    | error halt =>
      obtain ⟨hd, he⟩ := hm h
      have hq := isRequiredCycle_of_admitsAbsence .empty hd ha he
      exact absurd hq (not_isRequiredCycle (.inr rfl) he)
  case right =>
    cases h : ofMembers space.declarations none {} [(key, node)] with
    | ok entries => exact .inl ⟨.object entries, by simp only [generate, ofNode_struct, h, Except.map]⟩
    | error halt =>
      obtain ⟨hd, he⟩ := hm h
      have hq := isRequiredCycle_of_admitsAbsence .empty hd ha he
      cases halt with
      | cycle cycle => cases hq
      | failed error =>
        have hf := Definition.wellFormed_of_parse hp
        have hb := hasBarrenEnd_of_admitsAbsence (Typespace.compiled_of_ofJson hs) hf hd ha he
        exact .inr ⟨error, by simp only [generate, ofNode_struct, h, Except.map], hq, hb⟩

-- The absence comes first in the union, and the name at the end of it is that of an optional.
theorem generate_of_missing_optional :
    ∃ space node, Typespace.ofJson (.object [("maybe", .string "string?")]) = .ok space ∧
      space.parse (.string "void|maybe") = .ok node ∧
      (¬node.isOptional → ∀ inner, ReflTransGen (AliasStep space.declarations) (.optional inner) node →
        ∃ depth, Productive space.declarations depth inner) ∧
      validate space {} (.struct [("k", node)]) (.object []) = [] ∧
      (∀ substitute, ∃ value,
        generate space { onRequiredCycle := some substitute } (.struct [("k", node)]) = .ok value) ∧
      ((∃ value, generate space {} (.struct [("k", node)]) = .ok value) ∨
        ∃ error, generate space {} (.struct [("k", node)]) = .error error ∧ error.isRequiredCycle ∧
          node.HasBarrenEnd space) := by
  have ha : Declarations.aliasCycle? [⟨"maybe", .string "string?", .optional (.primitive .string)⟩] =
      none := by cbv
  refine ⟨⟨_, AliasStep.wellFounded_of_aliasCycle? ha⟩, .union [.primitive .void, .reference "maybe"],
    ?hs, ?hp, ?hn, ?hv, generate_of_missing ?hs ?hp ?hn ?hv⟩
  case hs => exact Typespace.ofJson_object_eq_ok_iff.mpr ⟨by decide, by cbv, ha⟩
  case hp => cbv
  case hv => cbv
  case hn =>
    rintro - inner hl
    simp only [AliasStep.steps_union_iff, AliasStep.steps_primitive_iff, AliasStep.steps_reference_iff,
      reduceCtorEq, List.mem_cons, List.not_mem_nil, or_false, false_or, exists_eq_or_imp,
      exists_eq_left] at hl
    obtain ⟨next, hr, hl⟩ := hl
    cases hr
    simp only [AliasStep.steps_optional_iff, AliasStep.steps_primitive_iff, reduceCtorEq, or_false,
      Node.optional.injEq] at hl
    subst hl
    exact ⟨0, .primitive rfl⟩

-- The key may be missing in both cases. But the loop has no value, and where it ends a union, the
-- absence in that union is lost. And the name of an optional is no optional member.
theorem not_generate_of_missing :
    (∃ space node, Typespace.ofJson (.object [("loop", .object [("next", .string "loop")])]) = .ok space ∧
      space.parse (.string "void|loop") = .ok node ∧
      validate space {} (.struct [("k", node)]) (.object []) = [] ∧
      generate space {} (.struct [("k", node)]) = .error (.requiredCycle "loop" ["loop"])) ∧
    (∃ space node, Typespace.ofJson (.object [("none", .string "never?")]) = .ok space ∧
      space.parse (.string "none") = .ok node ∧
      validate space {} (.struct [("k", node)]) (.object []) = [] ∧
      generate space {} (.struct [("k", node)]) =
        .error (.ungeneratable "never" "'never' has no values.")) := by
  have h₁ : Declarations.aliasCycle?
      [⟨"loop", .object [("next", .string "loop")], .struct [("next", .reference "loop")]⟩] = none := by
    cbv
  have h₂ : Declarations.aliasCycle? [⟨"none", .string "never?", .optional (.primitive .never)⟩] = none := by
    cbv
  constructor
  case left =>
    refine ⟨⟨_, AliasStep.wellFounded_of_aliasCycle? h₁⟩, .union [.primitive .void, .reference "loop"],
      Typespace.ofJson_object_eq_ok_iff.mpr ⟨by decide, by cbv, h₁⟩, by cbv, by cbv, by cbv⟩
  case right =>
    refine ⟨⟨_, AliasStep.wellFounded_of_aliasCycle? h₂⟩, .reference "none",
      Typespace.ofJson_object_eq_ok_iff.mpr ⟨by decide, by cbv, h₂⟩, by cbv, by cbv, by cbv⟩

end Generate

end JsonShape
