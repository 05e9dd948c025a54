import Mathlib
import JsonShape.Proofs.Generation.Results
import JsonShape.Proofs.References.Discovery
import JsonShape.Proofs.Typespace.Visits

namespace JsonShape

theorem mapM_eq_some_map {α β : Type} {visit : α → Option β} {walk : α → β} {parts : List α}
    (h : ∀ part ∈ parts, visit part = some (walk part)) : parts.mapM visit = some (parts.map walk) := by
  induction parts with
  | nil => rfl
  | cons part rest hi =>
    obtain ⟨hp, hr⟩ := List.forall_mem_cons.mp h
    rw [List.mapM_cons, hp, hi hr]
    rfl

namespace Context

-- One visit in the search for a cycle among the aliases of a node.
def aliasCycleStep (space : Declarations) (visit : Context → Node → Option (Option Cycle)) (ctx : Context)
    (node : Node) : Option (Option Cycle) :=
  match node with
  | .reference name =>
    match ctx.reference space name with
    | .node resolved inside => visit inside resolved
    | .cycle _ cycle => some (some cycle)
    | .unresolved => some none
  | .union members => members.findSomeM? (visit ctx)
  | .optional inner => visit ctx inner
  | .primitive _ | .literal _ | .list _ | .tuple _ | .struct _ => some none

variable {space : Declarations} {ctx : Context} {name : String} {cycle : Cycle}

theorem aliasCycle?_reference_of_node {node : Node} {inside : Context}
    (h : ctx.reference space name = .node node inside) :
    ctx.aliasCycle? space (.reference name) = inside.aliasCycle? space node := by
  rw [aliasCycle?]
  split <;> simp_all

theorem aliasCycle?_reference_of_cycle {node : Node} (h : ctx.reference space name = .cycle node cycle) :
    ctx.aliasCycle? space (.reference name) = some cycle := by
  rw [aliasCycle?]
  split <;> simp_all

theorem aliasCycle?_reference_of_unresolved (h : ctx.reference space name = .unresolved) :
    ctx.aliasCycle? space (.reference name) = none := by
  rw [aliasCycle?]
  split <;> simp_all

theorem findSomeM?_aliasCycle {visit : Node → Option (Option Cycle)} {members : List Node}
    (h : ∀ member ∈ members, visit member = some (ctx.aliasCycle? space member)) :
    members.findSomeM? visit = some (ctx.memberAliasCycle? space members) := by
  induction members with
  | nil => rw [memberAliasCycle?]; rfl
  | cons member rest hi =>
    obtain ⟨hm, hr⟩ := List.forall_mem_cons.mp h
    rw [List.findSomeM?_cons, memberAliasCycle?, hm, hi hr]
    cases ctx.aliasCycle? space member <;> rfl

theorem descends_aliasCycleStep :
    Descends space (aliasCycleStep space) fun ctx node => some (ctx.aliasCycle? space node) := by
  intro visit ctx node h
  beta_reduce at h ⊢
  cases node with
  | reference name =>
    rw [aliasCycleStep]
    cases hr : ctx.reference space name with
    | node resolved inside =>
      rw [aliasCycle?_reference_of_node hr]
      exact h inside resolved (.reference hr)
    | cycle      => rw [aliasCycle?_reference_of_cycle hr]
    | unresolved => rw [aliasCycle?_reference_of_unresolved hr]
  | union members =>
    rw [aliasCycleStep, aliasCycle?]
    exact findSomeM?_aliasCycle fun member hm => h ctx member (.child hm rfl)
  | optional inner =>
    rw [aliasCycleStep, aliasCycle?]
    exact h ctx inner (.child (.head _) rfl)
  | primitive | literal | list | tuple | struct => rw [aliasCycleStep, aliasCycle?] <;> simp

end Context

namespace Synthesis

-- How a node is visited, and a member of a union that has more members behind it or not.
variable (visit : Node → Option Synthesis) (visitMember : Bool → Node → Option Synthesis)

def slotsStep : List Node → Option (Except Halt (List Json))
  | [] => some (.ok [])
  | slot :: rest =>
    if slot.isOptional then some (.ok [])
    else do
      match ← visit slot with
      | .error halt => return .error halt
      | .ok none => return .error (.failed (unrepresentable slot))
      | .ok (some item) => return (← slotsStep rest).map (item :: ·)

def unionStep (absent : Bool) (failure : Option GenerateError) : List Node → Option Synthesis
  | [] => some (ofExhausted absent failure)
  | member :: rest => do
    match ← visitMember (!rest.isEmpty) member with
    | .ok (some value) => return .ok (some value)
    | .ok none => unionStep true failure rest
    | .error (.failed (.ungeneratable definition reason)) =>
      unionStep absent (failure.or (some (.ungeneratable definition reason))) rest
    | .error (.failed error) => return .error (.failed error)
    | .error (.cycle cycle) =>
      if ¬rest.isEmpty ∨ absent then unionStep absent failure rest
      else return .error (.cycle cycle)

def membersStep : List (String × Node) → Option (Except Halt (List (String × Json)))
  | [] => some (.ok [])
  | (key, member) :: rest =>
    if member.isOptional then membersStep rest
    else do
      match ← visit member with
      | .error halt => return .error halt
      | .ok value =>
        let others ← membersStep rest
        return others.map fun entries => value.elim entries fun value => (key, value) :: entries

-- One visit of a generation.
def step (space : Declarations) (substitute : Option Json) (visit : Context → Node → Option Synthesis)
    (ctx : Context) (node : Node) : Option Synthesis :=
  match node with
  | .primitive keyword => some (ofKeyword keyword)
  | .literal literal => some (.ok (some literal.toJson))
  | .reference name =>
    match ctx.reference space name with
    | .node resolved inside => visit inside resolved
    | .cycle _ cycle => some (ofCycle substitute cycle)
    | .unresolved => some (ungeneratable name s!"'{name}' is not declared in the typespace.")
  | .list _ => some (.ok (some (.array [])))
  | .tuple slots => do
    let items ← slotsStep (visit ctx) slots
    return items.map fun items => some (.array items)
  | .union members => unionStep (fun hasMore => visit (ctx.alternative hasMore)) false none members
  | .optional inner => visit ctx inner
  | .struct members => do
    let entries ← membersStep (visit ctx) members
    return entries.map fun entries => some (.object entries)

section Parts

variable {space : Declarations} {substitute : Option Json} {ctx : Context}
variable {visit : Node → Option Synthesis} {visitMember : Bool → Node → Option Synthesis}

theorem slotsStep_eq {slots : List Node}
    (h : ∀ slot ∈ slots, visit slot = some (ofNode space substitute ctx slot)) :
    slotsStep visit slots = some (ofSlots space substitute ctx slots) := by
  induction slots with
  | nil => rw [slotsStep, ofSlots]
  | cons slot rest hi =>
    obtain ⟨hs, hr⟩ := List.forall_mem_cons.mp h
    rw [slotsStep, ofSlots, hs, hi hr]
    split
    case isTrue => rfl
    case isFalse =>
      rcases ofNode space substitute ctx slot with halt | _ | item
      case error | ok.none => rfl
      case ok.some => cases ofSlots space substitute ctx rest <;> rfl

theorem unionStep_eq {absent : Bool} {failure : Option GenerateError} {members : List Node}
    (h : ∀ member ∈ members, ∀ hasMore,
      visitMember hasMore member = some (ofNode space substitute (ctx.alternative hasMore) member)) :
    unionStep visitMember absent failure members = some (ofUnion space substitute ctx absent failure members) := by
  induction members generalizing absent failure with
  | nil => rw [unionStep, ofUnion]
  | cons member rest hi =>
    obtain ⟨hm, hr⟩ := List.forall_mem_cons.mp h
    rw [unionStep, ofUnion, hm]
    rcases ofNode space substitute (ctx.alternative (!rest.isEmpty)) member with halt | _ | value
    case ok.none => exact hi hr
    case ok.some => rfl
    case error =>
      rcases halt with cycle | error
      case failed =>
        cases error with
        | ungeneratable => exact hi hr
        | requiredCycle => rfl
      case cycle =>
        -- The cycle is left to the other members, if there are any.
        simp only [Option.bind_eq_bind, Option.bind_some, hi hr]
        split <;> rfl

theorem membersStep_eq {members : List (String × Node)}
    (h : ∀ member ∈ members, visit member.snd = some (ofNode space substitute ctx member.snd)) :
    membersStep visit members = some (ofMembers space substitute ctx members) := by
  induction members with
  | nil => rw [membersStep, ofMembers]
  | cons member rest hi =>
    obtain ⟨hm, hr⟩ := List.forall_mem_cons.mp h
    rw [membersStep, ofMembers, hm, hi hr]
    split
    case isTrue => rfl
    case isFalse =>
      cases ofNode space substitute ctx member.snd with
      | error => rfl
      | ok => cases ofMembers space substitute ctx rest <;> rfl

end Parts

theorem descends_step {space : Declarations} {substitute : Option Json} :
    Context.Descends space (step space substitute) fun ctx node => some (ofNode space substitute ctx node) := by
  intro visit ctx node h
  beta_reduce at h ⊢
  cases node with
  | primitive | literal | list => rw [step, ofNode]
  | reference name =>
    rw [step]
    cases hr : ctx.reference space name with
    | node resolved inside =>
      rw [ofNode_reference_of_node hr]
      exact h inside resolved (.reference hr)
    | cycle                => rw [ofNode_reference_of_cycle hr]
    | unresolved           => rw [ofNode_reference_of_unresolved hr]
  | tuple slots =>
    have hs : ∀ slot ∈ slots, visit ctx slot = some (ofNode space substitute ctx slot) :=
      fun slot hs => h ctx slot (.child hs rfl)
    rw [step, slotsStep_eq hs, ofNode_tuple]
    rfl
  | union members =>
    rw [step, ofNode]
    exact unionStep_eq fun member hm hasMore => h _ member (.child hm (Context.seen_alternative hasMore))
  | optional inner =>
    rw [step, ofNode]
    exact h ctx inner (.child (.head _) rfl)
  | struct members =>
    have hm : ∀ member ∈ members, visit ctx member.snd = some (ofNode space substitute ctx member.snd) :=
      fun member hm => h ctx member.snd (.child (List.mem_map_of_mem hm) rfl)
    rw [step, membersStep_eq hm, ofNode_struct]
    rfl

end Synthesis

namespace Collection

-- One visit of a walk over all mentions.
def mentionsStep (c : Collection) (visit : Context → Node → Option (List String)) (ctx : Context)
    (node : Node) : Option (List String) :=
  match node with
  | .reference name =>
    if c.transitive then
      match ctx.reference c.space name with
      | .node resolved inside => do
        let behind ← visit inside resolved
        return c.shown name ++ behind
      | .cycle .. | .unresolved => some (c.shown name)
    else some (c.shown name)
  | .primitive _ | .literal _ => some []
  | .list item => visit ctx item
  | .optional inner => visit ctx inner
  | .tuple nodes | .union nodes => return (← nodes.mapM (visit ctx)).flatten
  | .struct members => return (← members.mapM fun member => visit ctx member.snd).flatten

-- A walk that takes each name once, over one node after the other.
def discoverAllStep (visit : Node → List String → Option Discovery) (nodes : List Node)
    (visited : List String) : Option Discovery :=
  match nodes with
  | [] => some ⟨[], visited⟩
  | node :: rest => do
    let first ← visit node visited
    let others ← discoverAllStep visit rest first.visited
    return ⟨first.found ++ others.found, others.visited⟩

-- One visit of such a walk.
def discoverStep (c : Collection) (visit : Context → Node → List String → Option Discovery) (ctx : Context)
    (node : Node) (visited : List String) : Option Discovery :=
  match node with
  | .reference name =>
    if name ∈ visited then some ⟨[], visited⟩
    else if c.transitive then
      match ctx.reference c.space name with
      | .node resolved inside => do
        let behind ← visit inside resolved (name :: visited)
        return ⟨c.shown name ++ behind.found, behind.visited⟩
      | .cycle .. | .unresolved => some ⟨c.shown name, name :: visited⟩
    else some ⟨c.shown name, name :: visited⟩
  | .primitive _ | .literal _ => some ⟨[], visited⟩
  | .list item => visit ctx item visited
  | .optional inner => visit ctx inner visited
  | .tuple nodes | .union nodes => discoverAllStep (visit ctx) nodes visited
  | .struct members => discoverAllStep (visit ctx) (members.map Prod.snd) visited

-- One visit in the form of the node. What has no form of its own is left to a walk over its mentions.
def shapeStep (names : Node → Option (List String)) (visit : Context → Node → Option References)
    (ctx : Context) (node : Node) : Option References :=
  match node with
  | .struct members => do
    let parts ← members.mapM fun member => return (member.fst, ← visit ctx member.snd)
    return .shape parts
  | .tuple slots => return .slots (← slots.mapM (visit ctx))
  | .optional inner => visit ctx inner
  | .primitive _ | .literal _ | .reference _ | .list _ | .union _ => return .names (← names node)

variable {c : Collection} {ctx : Context} {visited : List String}

theorem descends_mentionsStep (c : Collection) :
    Context.Descends c.space c.mentionsStep fun ctx node => some (c.mentions ctx node) := by
  intro visit ctx node h
  beta_reduce at h ⊢
  have hc : ∀ child ∈ node.children, visit ctx child = some (c.mentions ctx child) :=
    fun child hc => h ctx child (.child hc rfl)
  cases node with
  | primitive | literal => rw [mentionsStep, mentions]
  | reference name =>
    rw [mentionsStep]
    rcases c.enters_or_stays ctx name with ⟨node, inside, ht, hr⟩ | hs
    case inl =>
      rw [mentions_of_enters ⟨ht, hr⟩, if_pos ht, hr]
      simp only [h inside node (.reference hr)]
      rfl
    case inr =>
      rw [mentions_of_stays hs]
      split
      case isFalse => rfl
      case isTrue ht =>
        split
        case h_1 hr => exact absurd ⟨ht, hr⟩ (hs _ _)
        all_goals rfl
  | list | optional =>
    rw [mentionsStep, mentions]
    exact hc _ (.head _)
  | tuple nodes | union nodes =>
    have hn : ∀ node ∈ nodes, visit ctx node = some (c.mentions ctx node) := hc
    rw [mentionsStep, mapM_eq_some_map hn, mentions, mentionsAll_eq_flatMap, List.flatMap_def]
    rfl
  | struct members =>
    have hm : ∀ member ∈ members, visit ctx member.snd = some (c.mentions ctx member.snd) :=
      fun member hm => hc member.snd (List.mem_map_of_mem hm)
    rw [mentionsStep, mapM_eq_some_map hm, mentions, mentionsFields_eq, mentionsAll_eq_flatMap,
      List.flatMap_map, List.flatMap_def]
    rfl

theorem discoverAllStep_eq {visit : Node → List String → Option Discovery} {nodes : List Node}
    (h : ∀ node ∈ nodes, visit node = fun visited => some (c.discover ctx node visited)) :
    discoverAllStep visit nodes visited = some (c.discoverAll ctx nodes visited) := by
  induction nodes generalizing visited with
  | nil => rw [discoverAllStep, discoverAll]
  | cons node rest hi =>
    obtain ⟨hn, hr⟩ := List.forall_mem_cons.mp h
    rw [discoverAllStep, discoverAll, hn]
    simp only [Option.bind_eq_bind, Option.bind_some, hi hr]
    rfl

theorem descends_discoverStep (c : Collection) :
    Context.Descends c.space c.discoverStep fun ctx node visited => some (c.discover ctx node visited) := by
  intro visit ctx node h
  beta_reduce at h ⊢
  funext visited
  have hc : ∀ child ∈ node.children, visit ctx child = fun visited => some (c.discover ctx child visited) :=
    fun child hc => h ctx child (.child hc rfl)
  cases node with
  | primitive | literal => rw [discoverStep, discover]
  | reference name =>
    rw [discoverStep]
    by_cases hv : name ∈ visited
    case pos => rw [if_pos hv, discover_of_visited hv]
    case neg =>
      rw [if_neg hv]
      rcases c.enters_or_stays ctx name with ⟨node, inside, ht, hr⟩ | hs
      case inl =>
        rw [discover_of_enters hv ⟨ht, hr⟩, if_pos ht, hr]
        simp only [h inside node (.reference hr)]
        rfl
      case inr =>
        rw [discover_of_stays hv hs]
        split
        case isFalse => rfl
        case isTrue ht =>
          split
          case h_1 hr => exact absurd ⟨ht, hr⟩ (hs _ _)
          all_goals rfl
  | list | optional => rw [discoverStep, discover, hc _ (.head _)]
  | tuple | union =>
    rw [discoverStep, discover]
    exact discoverAllStep_eq hc
  | struct members =>
    rw [discoverStep, discover, discoverFields_eq]
    exact discoverAllStep_eq hc

theorem shapeStep_eq {names : Node → Option (List String)} {visit : Context → Node → Option References}
    {node : Node} (hn : names node = some (c.mentions {} node))
    (hc : ∀ child ∈ node.children, visit ctx child = some (c.shape child)) :
    shapeStep names visit ctx node = some (c.shape node) := by
  cases node with
  | primitive | literal | reference | list | union =>
    rw [shapeStep, hn, shape] <;> simp
  | optional inner =>
    rw [shapeStep, shape]
    exact hc inner (.head _)
  | tuple slots =>
    have hs : ∀ slot ∈ slots, visit ctx slot = some (c.shape slot) := hc
    rw [shapeStep, mapM_eq_some_map hs, shape, shapeSlots_eq_map]
    rfl
  | struct members =>
    have hm : ∀ member ∈ members,
        (do return (member.fst, ← visit ctx member.snd)) = some (member.fst, c.shape member.snd) := by
      intro member hm
      rw [hc member.snd (List.mem_map_of_mem hm)]
      rfl
    rw [shapeStep, mapM_eq_some_map hm, shape, shapeFields_eq_map]
    rfl

theorem descends_shapeStep (c : Collection) :
    Context.Descends c.space (shapeStep fun node => some (c.mentions {} node))
      fun _ node => some (c.shape node) :=
  fun _ ctx _ h => shapeStep_eq rfl fun child hc => h ctx child (.child hc rfl)

-- The walks over mentions are nested in the form.
theorem nested_shapeStep {visits levels : Nat} {node : Node}
    (hv : Context.visitDepth c.space ({}, node) < visits) (hl : Context.visitDepth c.space ({}, node) < levels) :
    Context.nested (shapeStep (Context.nested c.mentionsStep none visits {})) none levels {} node =
      some (c.shape node) := by
  induction levels generalizing node with
  | zero => cases hl
  | succ levels hi =>
    refine shapeStep_eq ((c.descends_mentionsStep.ends none).nested visits {} node hv) fun child hc => ?_
    have hd : Context.visitDepth c.space ({}, child) < Context.visitDepth c.space ({}, node) :=
      Context.GoesOn.visitDepth_lt (.child hc rfl)
    exact hi (Nat.lt_trans hd hv) (Nat.lt_of_lt_of_le hd (Nat.le_of_lt_succ hl))

end Collection

-- Each visit of a walk leaves fewer names that are not on the way, or as many of them and a smaller node.
theorem walks_end (space : Declarations) (substitute : Option Json) (admits : String → Bool)
    (transitive : Bool) :
    let c : Collection := { space, admits, transitive }
    WellFounded (Context.GoesOn space) ∧
    (∀ next last, Context.GoesOn space next last →
      Prod.Lex (· < ·) (· < ·) (Context.extent space next) (Context.extent space last)) ∧
    Context.Ends space (Synthesis.step space substitute) none
      (fun ctx node => some (Synthesis.ofNode space substitute ctx node)) ∧
    Context.Ends space (Context.aliasCycleStep space) none
      (fun ctx node => some (ctx.aliasCycle? space node)) ∧
    Context.Ends space c.mentionsStep none (fun ctx node => some (c.mentions ctx node)) ∧
    Context.Ends space c.discoverStep (fun _ => none)
      (fun ctx node visited => some (c.discover ctx node visited)) ∧
    Context.Ends space (Collection.shapeStep fun node => some (c.mentions {} node)) none
      (fun _ node => some (c.shape node)) ∧
    ∀ visits node, Context.visitDepth space ({}, node) < visits →
      Context.nested (Collection.shapeStep (Context.nested c.mentionsStep none visits {})) none visits {} node =
        some (c.shape node) := by
  intro c
  refine ⟨Context.GoesOn.wellFounded space, fun _ _ => Context.GoesOn.extent_lt, ?generation, ?aliases,
    ?mentions, ?discovery, ?shape, ?nestedShape⟩
  case generation  => exact Synthesis.descends_step.ends none
  case aliases     => exact Context.descends_aliasCycleStep.ends none
  case mentions    => exact c.descends_mentionsStep.ends none
  case discovery   => exact c.descends_discoverStep.ends fun _ => none
  case shape       => exact c.descends_shapeStep.ends none
  case nestedShape => exact fun _ _ hv => Collection.nested_shapeStep hv hv

-- A tree comes back inside of itself, and refers to a name that stands for nothing.
theorem walks_end_tree :
    let space : Declarations :=
      [⟨"tree", .null, .struct [("kids", .union [.reference "branches", .reference "lost"])]⟩,
        ⟨"branches", .null, .list (.reference "tree")⟩]
    let c : Collection := { space, admits := fun _ => true, transitive := true }
    let tree : Node := .reference "tree"
    (∃ next, Context.GoesOn space next ({}, tree) ∧
      Prod.Lex (· < ·) (· < ·) (Context.extent space next) (Context.extent space ({}, tree))) ∧
    Context.visitDepth space ({}, tree) < 7 ∧
    Context.nested (Synthesis.step space none) none 4 {} tree = none ∧
    Context.nested (Synthesis.step space none) none 7 {} tree =
      some (.ok (some (.object [("kids", .array [])]))) ∧
    Context.nested c.mentionsStep none 5 {} tree = none ∧
    Context.nested c.mentionsStep none 7 {} tree = some ["tree", "branches", "tree", "lost"] ∧
    Context.nested (Collection.shapeStep (Context.nested c.mentionsStep none 7 {})) none 7 {} tree =
      some (.names ["tree", "branches", "tree", "lost"]) := by
  intro space c tree
  have hr : Context.GoesOn space _ ({}, tree) := .reference rfl
  have hd : Context.visitDepth space ({}, tree) < 7 := by cbv
  obtain ⟨_, he, hg, _, hm, _, _, hs⟩ := walks_end space none (fun _ => true) true
  refine ⟨⟨_, hr, he _ _ hr⟩, hd, ?shallow, (hg.nested 7 {} _ hd).trans ?generated, ?cut,
    (hm.nested 7 {} _ hd).trans ?mentioned, (hs 7 _ hd).trans ?shaped⟩
  all_goals cbv

end JsonShape
