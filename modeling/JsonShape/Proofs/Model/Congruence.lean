import JsonShape.Model
import JsonShape.Proofs.Generation.Results
import JsonShape.Proofs.References.Discovery
import JsonShape.Proofs.Typespace.Answers
import JsonShape.Proofs.Validation.Acceptance
import JsonShape.Proofs.Validation.Parts

namespace JsonShape

open Context (SameAnswers)

section Absence

variable {space other : Declarations} {ctx : Context} {node : Node}

theorem Context.acceptsAbsence_congr (h : SameAnswers space other ctx node) :
    ctx.acceptsAbsence other node = ctx.acceptsAbsence space node := by
  induction ctx, node using Context.induction space with
  | primitive | literal | list | tuple | optional | struct => simp only [acceptsAbsence]
  | union ctx members hi =>
    rw [Bool.eq_iff_iff, acceptsAbsence_union, acceptsAbsence_union]
    refine exists_congr fun member => and_congr_right fun hm => Bool.eq_iff_iff.mp ?_
    exact hi member hm false (h.member hm false)
  | reference ctx name hi =>
    cases hr : ctx.reference space name with
    | node node inside =>
      rw [acceptsAbsence_reference_of_node hr, acceptsAbsence_reference_of_node (h.reference_eq.trans hr)]
      exact hi node inside hr (h.inside hr)
    | cycle | unresolved =>
      have ho := h.reference_eq.trans hr
      rw [acceptsAbsence_reference_eq_false (by simp [ho]), acceptsAbsence_reference_eq_false (by simp [hr])]

end Absence

namespace Synthesis

variable {space other : Declarations} {substitute : Option Json} {ctx : Context}

theorem ofSlots_congr {slots : List Node}
    (h : ∀ slot ∈ slots, ofNode other substitute ctx slot = ofNode space substitute ctx slot) :
    ofSlots other substitute ctx slots = ofSlots space substitute ctx slots := by
  induction slots with
  | nil => rw [ofSlots, ofSlots]
  | cons slot rest hi =>
    obtain ⟨hs, hr⟩ := List.forall_mem_cons.mp h
    rw [ofSlots, ofSlots, hs, hi hr]

theorem ofUnion_congr {absent : Bool} {failure : Option GenerateError} {members : List Node}
    (h : ∀ member ∈ members, ∀ hasMore, ofNode other substitute (ctx.alternative hasMore) member =
      ofNode space substitute (ctx.alternative hasMore) member) :
    ofUnion other substitute ctx absent failure members =
      ofUnion space substitute ctx absent failure members := by
  induction members generalizing absent failure with
  | nil => rw [ofUnion, ofUnion]
  | cons member rest hi =>
    obtain ⟨hm, hr⟩ := List.forall_mem_cons.mp h
    simp only [ofUnion, hm, hi hr]

theorem ofMembers_congr {members : List (String × Node)}
    (h : ∀ member ∈ members,
      ofNode other substitute ctx member.snd = ofNode space substitute ctx member.snd) :
    ofMembers other substitute ctx members = ofMembers space substitute ctx members := by
  induction members with
  | nil => rw [ofMembers, ofMembers]
  | cons member rest hi =>
    obtain ⟨hm, hr⟩ := List.forall_mem_cons.mp h
    rw [ofMembers, ofMembers, hm, hi hr]

theorem ofNode_congr {node : Node} (h : SameAnswers space other ctx node) :
    ofNode other substitute ctx node = ofNode space substitute ctx node := by
  induction ctx, node using Context.induction space with
  | primitive | literal | list => rw [ofNode, ofNode]
  | reference ctx name hi =>
    cases hr : ctx.reference space name with
    | node node inside =>
      rw [ofNode_reference_of_node hr, ofNode_reference_of_node (h.reference_eq.trans hr)]
      exact hi node inside hr (h.inside hr)
    | cycle =>
      rw [ofNode_reference_of_cycle hr, ofNode_reference_of_cycle (h.reference_eq.trans hr)]
    | unresolved =>
      rw [ofNode_reference_of_unresolved hr, ofNode_reference_of_unresolved (h.reference_eq.trans hr)]
  | tuple ctx slots hi =>
    rw [ofNode_tuple, ofNode_tuple, ofSlots_congr fun slot hs => hi slot hs (h.child hs)]
  | union ctx members hi =>
    rw [ofNode, ofNode]
    exact ofUnion_congr fun member hm hasMore => hi member hm hasMore (h.member hm hasMore)
  | optional ctx inner hi =>
    rw [ofNode, ofNode]
    exact hi (h.child (.head _))
  | struct ctx members hi =>
    rw [ofNode_struct, ofNode_struct,
      ofMembers_congr fun member hm => hi member hm (h.child (List.mem_map_of_mem hm))]

end Synthesis

namespace Collection

variable {c : Collection} {other : Declarations} {ctx : Context} {node : Node}

theorem mentions_congr (h : SameAnswers c.space other ctx node) :
    mentions { c with space := other } ctx node = c.mentions ctx node := by
  induction ctx, node using Context.children_induction c.space with
  | reference ctx name hi =>
    rcases c.enters_or_stays ctx name with ⟨node, inside, he⟩ | hs
    case inl =>
      have ho : Enters { c with space := other } ctx name node inside :=
        ⟨he.left, h.reference_eq.trans he.right⟩
      rw [mentions_of_enters he, mentions_of_enters ho, hi node inside he.right (h.inside he.right)]
      rfl
    case inr =>
      have ho : ∀ node inside, ¬Enters { c with space := other } ctx name node inside :=
        fun node inside he => hs node inside ⟨he.left, h.reference_eq.symm.trans he.right⟩
      rw [mentions_of_stays hs, mentions_of_stays ho]
      rfl
  | other ctx node hr hi =>
    rw [mentions_of_children hr, mentions_of_children hr, mentionsAll_eq_flatMap, mentionsAll_eq_flatMap]
    exact List.flatMap_congr fun child hc => hi child hc (h.child hc)

-- No name is on the way to a member of a struct or to a slot.
theorem shape_congr (h : SameAnswers c.space other {} node) :
    shape { c with space := other } node = c.shape node := by
  induction node using Node.children_induction with
  | h node hi =>
  have hc : ∀ child ∈ node.children, shape { c with space := other } child = c.shape child :=
    fun child hc => hi child hc (h.child hc)
  cases node with
  | struct members =>
    rw [shape, shape, shapeFields_eq_map, shapeFields_eq_map, References.shape.injEq]
    exact List.map_congr_left fun member hm => by rw [hc member.snd (List.mem_map_of_mem hm)]
  | tuple slots =>
    rw [shape, shape, shapeSlots_eq_map, shapeSlots_eq_map, References.slots.injEq]
    exact List.map_congr_left hc
  | optional inner =>
    rw [shape, shape]
    exact hc inner (.head _)
  | primitive | literal | reference | list | union => simp only [shape, mentions_congr h]

end Collection

namespace Validation

variable {space other : Typespace} {ignoreExtraneous : Bool} {ctx : Context} {value : Json}

-- The checks of the value do the same with the other typespace.
def SameChecks (space other : Typespace) (ignoreExtraneous : Bool) (ctx : Context) (value : Json)
    (node : Node) : Prop :=
  ∀ label, check other ignoreExtraneous ctx label value node =
    check space ignoreExtraneous ctx label value node

theorem checkItems_congr {index : Nat} {items : List Json} {item : Node}
    (h : ∀ value ∈ items, SameChecks space other ignoreExtraneous ctx value item) :
    checkItems other ignoreExtraneous ctx index items item =
      checkItems space ignoreExtraneous ctx index items item := by
  rw [checkItems_eq_flatMap, checkItems_eq_flatMap]
  exact List.flatMap_congr fun place hm => congrArg _ (h place.fst (List.fst_mem_of_mem_zipIdx hm) none)

theorem checkSlots_congr {index : Nat} {items : List Json} {slots : List Node}
    (h : ∀ value ∈ items, ∀ slot ∈ slots, SameChecks space other ignoreExtraneous ctx value slot.required) :
    checkSlots other ignoreExtraneous ctx index items slots =
      checkSlots space ignoreExtraneous ctx index items slots := by
  rw [checkSlots_eq_flatMap, checkSlots_eq_flatMap]
  refine List.flatMap_congr fun place hm => congrArg _ ?_
  obtain ⟨hv, hs⟩ := List.of_mem_zip (List.fst_mem_of_mem_zipIdx hm)
  exact h place.fst.fst hv place.fst.snd hs none

theorem checkUnion_congr {members : List Node}
    (h : ∀ member ∈ members, SameChecks space other ignoreExtraneous ctx value member) :
    checkUnion other ignoreExtraneous ctx value members =
      checkUnion space ignoreExtraneous ctx value members := by
  induction members with
  | nil => rw [checkUnion, checkUnion]
  | cons member rest hi =>
    obtain ⟨hm, hr⟩ := List.forall_mem_cons.mp h
    rw [checkUnion, checkUnion, hm, hi hr]

theorem checkMembers_congr {entries : List (String × Json)} {members : List (String × Node)}
    (hp : ∀ member ∈ members, ∀ value, entries.lookup member.fst = some value →
      SameChecks space other ignoreExtraneous ctx value member.snd.required)
    (ha : ∀ member ∈ members, SameAnswers space.declarations other.declarations ctx member.snd) :
    checkMembers other ignoreExtraneous ctx entries members =
      checkMembers space ignoreExtraneous ctx entries members := by
  rw [checkMembers_eq_flatMap, checkMembers_eq_flatMap]
  refine List.flatMap_congr fun member hm => congrArg _ ?_
  cases hl : entries.lookup member.fst with
  | some value =>
    rw [checkMember_of_lookup hl, checkMember_of_lookup hl]
    exact hp member hm value hl none
  | none =>
    rw [checkMember_of_missing hl, checkMember_of_missing hl, Context.acceptsAbsence_congr (ha member hm)]

theorem check_congr {node : Node} (h : SameAnswers space.declarations other.declarations ctx node) :
    SameChecks space other ignoreExtraneous ctx value node := by
  induction value, node using space.induction generalizing ctx
  case h value node hp hs =>
  intro label
  cases node with
  | primitive | literal => simp only [check]
  | reference name =>
    have he : other.resolve? name = space.resolve? name := h.resolve?_eq
    cases hr : space.resolve? name with
    | none => rw [check_reference_of_unresolved hr, check_reference_of_unresolved (he.trans hr)]
    | some node =>
      rw [check_reference_of_resolve? hr, check_reference_of_resolve? (he.trans hr)]
      exact hs node (.reference hr) (h.entering hr) _
  | list item =>
    cases value with
    | array items =>
      simp only [check]
      exact checkItems_congr fun part hm => hp part item (Json.sizeOf_item_lt hm) (h.child (.head _))
    | _ => simp only [check]
  | tuple slots =>
    cases value with
    | array items =>
      simp only [check]
      have hc : checkSlots other ignoreExtraneous ctx 0 items slots =
          checkSlots space ignoreExtraneous ctx 0 items slots :=
        checkSlots_congr fun part hm slot hs => hp part _ (Json.sizeOf_item_lt hm) (h.child hs).required
      rw [hc]
    | _ => simp only [check]
  | union members =>
    simp only [check]
    have hc : checkUnion other ignoreExtraneous ctx value members =
        checkUnion space ignoreExtraneous ctx value members :=
      checkUnion_congr fun member hm => hs member (.member hm) (h.child hm)
    rw [hc]
  | optional inner =>
    simp only [check]
    exact hs inner .optional (h.child (.head _)) label
  | struct members =>
    cases value with
    | object entries =>
      simp only [check]
      have hc {member : String × Node} (hm : member ∈ members) :
          SameAnswers space.declarations other.declarations ctx member.snd :=
        h.child (List.mem_map_of_mem hm)
      rw [checkMembers_congr (fun member hm part hl => hp part _ (Json.sizeOf_entry_lt hl) (hc hm).required)
        fun member hm => hc hm]
    | _ => simp only [check]

end Validation

namespace Typespace

-- Nothing that can be done with the node tells the typespaces apart.
structure SameResults (space other : Typespace) (node : Node) : Prop where
  validate   : ∀ options value, JsonShape.validate other options node value =
    JsonShape.validate space options node value
  generate   : ∀ options, JsonShape.generate other options node = JsonShape.generate space options node
  references : ∀ options, JsonShape.references other options node = JsonShape.references space options node

theorem sameResults_of_sameAnswers {space other : Typespace} {node : Node}
    (h : SameAnswers space.declarations other.declarations {} node) : space.SameResults other node where
  validate options value := Validation.check_congr h none
  generate options := by
    rw [JsonShape.generate, JsonShape.generate, Synthesis.ofNode_congr h]
  references options := by
    let c : Collection :=
      { space := space.declarations
        admits := fun name => options.filter.all (·.admits name)
        transitive := options.transitive }
    have hc : SameAnswers c.space other.declarations {} node := h
    simp only [JsonShape.references, Collection.found_discover]
    rw [Collection.mentions_congr hc, Collection.shape_congr hc]

end Typespace

end JsonShape
