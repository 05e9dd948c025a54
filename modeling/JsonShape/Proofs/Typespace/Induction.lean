import Mathlib.Logic.Relation
import JsonShape.Typespace.Basic

namespace JsonShape

namespace Node

theorem sizeOf_slot_lt {slot : Node} {slots : List Node} (h : slot ∈ slots) :
    sizeOf slot < sizeOf (Node.tuple slots) := by
  have := List.sizeOf_lt_of_mem h
  simp only [tuple.sizeOf_spec]
  omega

theorem sizeOf_member_lt {member : Node} {members : List Node} (h : member ∈ members) :
    sizeOf member < sizeOf (Node.union members) := by
  have := List.sizeOf_lt_of_mem h
  simp only [union.sizeOf_spec]
  omega

theorem sizeOf_field_lt {member : String × Node} {members : List (String × Node)}
    (h : member ∈ members) : sizeOf member.snd < sizeOf (Node.struct members) := by
  have := List.sizeOf_lt_of_mem h
  have : sizeOf member = 1 + sizeOf member.fst + sizeOf member.snd := rfl
  simp only [struct.sizeOf_spec]
  omega

end Node

namespace Json

theorem sizeOf_item_lt {item : Json} {items : List Json} (h : item ∈ items) :
    sizeOf item < sizeOf (Json.array items) := by
  have := List.sizeOf_lt_of_mem h
  simp only [array.sizeOf_spec]
  omega

theorem sizeOf_entry_lt {name : String} {value : Json} {entries : List (String × Json)}
    (h : entries.lookup name = some value) : sizeOf value < sizeOf (Json.object entries) := by
  have := Members.sizeOf_lt_of_lookup h
  simp only [object.sizeOf_spec]
  omega

end Json

namespace AliasStep

open Relation

variable {space : Declarations} {node : Node}

-- What stands for a node is the node itself, or stands for one that takes its place in a step.
theorem steps_iff {other : Node} :
    ReflTransGen (AliasStep space) node other ↔
      node = other ∨ ∃ next, AliasStep space next other ∧ ReflTransGen (AliasStep space) node next := by
  rw [ReflTransGen.cases_tail_iff, eq_comm]
  simp only [and_comm]

theorem steps_primitive_iff {keyword : Keyword} :
    ReflTransGen (AliasStep space) node (.primitive keyword) ↔ node = .primitive keyword := by
  rw [steps_iff]
  refine or_iff_left ?_
  rintro ⟨_, hs, _⟩
  cases hs

theorem steps_reference_iff {name : String} :
    ReflTransGen (AliasStep space) node (.reference name) ↔
      node = .reference name ∨
        ∃ next, space.resolve? name = some next ∧ ReflTransGen (AliasStep space) node next := by
  have h {next : Node} : AliasStep space next (.reference name) ↔ space.resolve? name = some next :=
    ⟨fun hs => by cases hs; assumption, .reference⟩
  simp only [@steps_iff space node (.reference name), h]

theorem steps_optional_iff {inside : Node} :
    ReflTransGen (AliasStep space) node (.optional inside) ↔
      node = .optional inside ∨ ReflTransGen (AliasStep space) node inside := by
  have h {next : Node} : AliasStep space next (.optional inside) ↔ next = inside :=
    ⟨fun hs => by cases hs; rfl, fun he => he ▸ .optional⟩
  simp only [@steps_iff space node (.optional inside), h, exists_eq_left]

theorem steps_union_iff {members : List Node} :
    ReflTransGen (AliasStep space) node (.union members) ↔
      node = .union members ∨ ∃ member ∈ members, ReflTransGen (AliasStep space) node member := by
  have h {next : Node} : AliasStep space next (.union members) ↔ next ∈ members :=
    ⟨fun hs => by cases hs; assumption, .member⟩
  simp only [@steps_iff space node (.union members), h]

end AliasStep

-- The context behind a name. A name that is met again is not added again.
def Context.entering (ctx : Context) (name : String) : Context :=
  if name ∈ ctx.seen then ctx else { ctx with seen := ctx.seen ++ [name] }

theorem Context.escapes_le_alternative {ctx : Context} {hasMore : Bool} :
    ctx.escapes ≤ (ctx.alternative hasMore).escapes := by
  cases hasMore
  case false => exact Nat.le_refl _
  case true  => exact Nat.le_succ _

section Visit

variable (space : Declarations) {motive : Context → Node → Prop}
  (primitive : ∀ ctx keyword, motive ctx (.primitive keyword))
  (literal   : ∀ ctx l, motive ctx (.literal l))
  (reference : ∀ ctx name,
    (∀ node inside, ctx.reference space name = .node node inside → motive inside node) →
    motive ctx (.reference name))
  (list      : ∀ ctx item, motive ctx item → motive ctx (.list item))
  (tuple     : ∀ ctx slots, (∀ slot ∈ slots, motive ctx slot) → motive ctx (.tuple slots))
  -- Each member is visited with the same names on the way, whether more can be picked or not.
  (union     : ∀ ctx members,
    (∀ member ∈ members, ∀ hasMore, motive (ctx.alternative hasMore) member) →
    motive ctx (.union members))
  (optional  : ∀ ctx inner, motive ctx inner → motive ctx (.optional inner))
  (struct    : ∀ ctx members, (∀ member ∈ members, motive ctx member.snd) →
    motive ctx (.struct members))

include primitive literal reference list tuple union optional struct

@[elab_as_elim]
theorem Context.induction (ctx : Context) (node : Node) : motive ctx node :=
  match node with
  | .primitive keyword => primitive ctx keyword
  | .literal l         => literal ctx l
  | .reference name    => reference ctx name fun resolved inside _ => Context.induction inside resolved
  | .list item         => list ctx item (Context.induction ctx item)
  | .tuple slots       => tuple ctx slots fun slot _ => Context.induction ctx slot
  | .union members     => union ctx members fun member _ hasMore =>
    Context.induction (ctx.alternative hasMore) member
  | .optional inner    => optional ctx inner (Context.induction ctx inner)
  | .struct members    => struct ctx members fun member _ => Context.induction ctx member.snd
termination_by (ctx.unseen space, sizeOf node)
decreasing_by
  · exact .left _ _ (unseen_lt ‹_›)
  · exact .right _ (by simp)
  · exact .right _ (Node.sizeOf_slot_lt ‹_›)
  · rw [unseen_alternative]
    exact .right _ (Node.sizeOf_member_lt ‹_›)
  · exact .right _ (by simp)
  · exact .right _ (Node.sizeOf_field_lt ‹_›)

end Visit

-- A value and a node are reached from smaller values, and from nodes that an alias step leads to.
theorem Typespace.induction (space : Typespace) {motive : Json → Node → Prop}
    (h : ∀ value node, (∀ part other, sizeOf part < sizeOf value → motive part other) →
      (∀ other, AliasStep space.declarations other node → motive value other) → motive value node)
    (value : Json) (node : Node) : motive value node :=
  h value node (fun part other _ => induction space h part other)
    (fun other _ => induction space h value other)
termination_by (sizeOf value, space.wellFounded.wrap node)
decreasing_by
  · exact .left _ _ ‹_›
  · exact .right _ ‹_›

end JsonShape
