import Mathlib
import JsonShape.Proofs.Typespace.AliasHeight
import JsonShape.Proofs.Validation.Acceptance

namespace JsonShape

namespace Json

mutual

-- How deep arrays and objects are nested.
def depth : Json → Nat
  | array items    => itemsDepth items + 1
  | object entries => entriesDepth entries + 1
  | null | bool _ | number _ | string _ => 0

def itemsDepth : List Json → Nat
  | []           => 0
  | item :: rest => max item.depth (itemsDepth rest)

def entriesDepth : List (String × Json) → Nat
  | []                 => 0
  | (_, value) :: rest => max value.depth (entriesDepth rest)

end

theorem depth_le_itemsDepth {item : Json} {items : List Json} (h : item ∈ items) :
    item.depth ≤ itemsDepth items := by
  induction h with
  | head         => exact Nat.le_max_left ..
  | tail _ _ hi  => exact Nat.le_trans hi (Nat.le_max_right ..)

theorem depth_le_entriesDepth {name : String} {value : Json} {entries : List (String × Json)}
    (h : (name, value) ∈ entries) : value.depth ≤ entriesDepth entries := by
  induction entries with
  | nil => cases h
  | cons entry rest hi =>
    rcases List.mem_cons.mp h with rfl | h
    case inl => exact Nat.le_max_left ..
    case inr => exact Nat.le_trans (hi h) (Nat.le_max_right ..)

theorem depth_item_lt {item : Json} {items : List Json} (h : item ∈ items) :
    item.depth < (array items).depth :=
  Nat.lt_succ_of_le (depth_le_itemsDepth h)

theorem depth_entry_lt {name : String} {value : Json} {entries : List (String × Json)}
    (h : entries.lookup name = some value) : value.depth < (object entries).depth :=
  Nat.lt_succ_of_le (depth_le_entriesDepth (Members.mem_of_lookup h))

end Json

namespace Node

mutual

-- How deep nodes are nested, as long as no name is followed.
def depth : Node → Nat
  | list item      => item.depth + 1
  | tuple slots    => partsDepth slots + 1
  | union members  => partsDepth members + 1
  | optional inner => inner.depth + 1
  | struct members => fieldsDepth members + 1
  | primitive _ | literal _ | reference _ => 0

def partsDepth : List Node → Nat
  | []           => 0
  | part :: rest => max part.depth (partsDepth rest)

def fieldsDepth : List (String × Node) → Nat
  | []                  => 0
  | (_, member) :: rest => max member.depth (fieldsDepth rest)

end

theorem depth_le_partsDepth {part : Node} {parts : List Node} (h : part ∈ parts) :
    part.depth ≤ partsDepth parts := by
  induction h with
  | head         => exact Nat.le_max_left ..
  | tail _ _ hi  => exact Nat.le_trans hi (Nat.le_max_right ..)

theorem depth_le_fieldsDepth {member : String × Node} {members : List (String × Node)}
    (h : member ∈ members) : member.snd.depth ≤ fieldsDepth members := by
  induction h with
  | head         => exact Nat.le_max_left ..
  | tail _ _ hi  => exact Nat.le_trans hi (Nat.le_max_right ..)

theorem depth_required_le (node : Node) : node.required.depth ≤ node.depth := by
  cases node
  case optional => exact Nat.le_succ _
  all_goals exact Nat.le_refl _

end Node

-- How deep the nodes of the declarations are.
def Declarations.depth (space : Declarations) : Nat :=
  Node.partsDepth (space.map Declaration.node)

theorem Declarations.depth_le_of_resolve? {space : Declarations} {name : String} {node : Node}
    (h : space.resolve? name = some node) : node.depth ≤ space.depth := by
  obtain ⟨d, hd, _, rfl⟩ := exists_mem_of_resolve? h
  exact Node.depth_le_partsDepth (List.mem_map_of_mem hd)

namespace Context

-- The test for absence, as long as its calls are nested no deeper than this.
def acceptsAbsenceWithin (space : Declarations) : Nat → Context → Node → Option Bool
  | 0, _, _ => none
  | calls + 1, ctx, node =>
    match node with
    | .optional _ => some true
    | .primitive keyword => some keyword.admitsAbsence
    | .union members => members.anyM (acceptsAbsenceWithin space calls ctx)
    | .reference name =>
      match ctx.reference space name with
      | .node resolved inside => acceptsAbsenceWithin space calls inside resolved
      | .cycle .. | .unresolved => some false
    | .literal _ | .list _ | .tuple _ | .struct _ => some false

theorem anyM_acceptsAbsence {space : Declarations} {ctx : Context} {isAbsent : Node → Option Bool}
    {members : List Node}
    (h : ∀ member ∈ members, isAbsent member = some (ctx.acceptsAbsence space member)) :
    members.anyM isAbsent = some (ctx.anyAcceptsAbsence space members) := by
  induction members with
  | nil => rw [anyAcceptsAbsence]; rfl
  | cons member rest hi =>
    obtain ⟨hm, hr⟩ := List.forall_mem_cons.mp h
    rw [List.anyM_cons, anyAcceptsAbsence, hm, hi hr]
    cases ctx.acceptsAbsence space member <;> rfl

end Context

namespace Validation

section Parts

-- How a part of the value is checked, and a missing member.
variable (run : Json → Node → Option (List ValidationError)) (isAbsent : Node → Option Bool)

def itemsWithin (index : Nat) (items : List Json) (item : Node) : Option (List ValidationError) :=
  match items with
  | [] => some []
  | value :: rest => do
    let errors ← run value item
    let others ← itemsWithin (index + 1) rest item
    return errors.map (·.under (.index index)) ++ others

def slotsWithin (index : Nat) (items : List Json) (slots : List Node) :
    Option (List ValidationError) :=
  match items, slots with
  | value :: rest, slot :: remaining => do
    let errors ← run value slot.required
    let others ← slotsWithin (index + 1) rest remaining
    return errors.map (·.under (.index index)) ++ others
  | _, _ => some []

-- The members behind one that accepts the value are not looked at.
def unionWithin (value : Json) (members : List Node) : Option (Option (List String)) :=
  match members with
  | [] => some (some [])
  | member :: rest => do
    match ← run value member with
    | [] => return none
    | errors =>
      let reasons := "; ".intercalate (errors.map ValidationError.text)
      let others ← unionWithin value rest
      return others.map (s!"{member.text}: {reasons}" :: ·)

def memberWithin (found : Option Json) (member : Node) : Option (List ValidationError) :=
  match found with
  | some value => run value member.required
  | none => do
    let absent ← isAbsent member
    return if absent then [] else [(Violation.missing member.text).error]

def membersWithin (entries : List (String × Json)) (members : List (String × Node)) :
    Option (List ValidationError) :=
  match members with
  | [] => some []
  | (key, member) :: rest => do
    let errors ← memberWithin run isAbsent (entries.lookup key) member
    let others ← membersWithin entries rest
    return errors.map (·.under (.key key)) ++ others

end Parts

-- The check of a value and a node, as long as its calls are nested no deeper than this.
def checkWithin (space : Declarations) (ignoreExtraneous : Bool) (calls : Nat) (ctx : Context)
    (label : Option String) (value : Json) (node : Node) : Option (List ValidationError) :=
  match calls with
  | 0 => none
  | calls + 1 =>
    match node with
    | .primitive keyword => some (if keyword.admits value then [] else mismatch label value node)
    | .literal l => some (if l.admits value then [] else mismatch label value node)
    | .reference name =>
      match ctx.reference space name with
      | .node resolved inside =>
        checkWithin space ignoreExtraneous calls inside (label.getD name) value resolved
      | .cycle resolved _ =>
        checkWithin space ignoreExtraneous calls ctx (label.getD name) value resolved
      | .unresolved => some [(Violation.unknownType name).error]
    | .list item =>
      match value with
      | .array items => itemsWithin (checkWithin space ignoreExtraneous calls ctx none) 0 items item
      | _ => some (mismatch label value node)
    | .tuple slots =>
      match value with
      | .array items =>
        if items.length < requiredSlots slots ∨ slots.length < items.length then
          some [(Violation.tupleLength items.length (requiredSlots slots) slots.length).error]
        else slotsWithin (checkWithin space ignoreExtraneous calls ctx none) 0 items slots
      | _ => some (mismatch label value node)
    | .union members => do
      match ← unionWithin (checkWithin space ignoreExtraneous calls ctx none) value members with
      | none => return []
      | some reasons => return [(Violation.notAssignableToAny value (label.getD node.text) reasons).error]
    | .optional inner => checkWithin space ignoreExtraneous calls ctx label value inner
    | .struct members =>
      match value with
      | .object entries => do
        let errors ← membersWithin (checkWithin space ignoreExtraneous calls ctx none)
          (ctx.acceptsAbsenceWithin space calls) entries members
        return errors ++ checkKeys ignoreExtraneous entries members
      | _ => some (mismatch label value node)

section Parts

variable {space : Typespace} {ignoreExtraneous : Bool} {ctx : Context}
variable {run : Json → Node → Option (List ValidationError)} {isAbsent : Node → Option Bool}

theorem itemsWithin_eq {index : Nat} {items : List Json} {item : Node}
    (h : ∀ value ∈ items, run value item = some (check space ignoreExtraneous ctx none value item)) :
    itemsWithin run index items item = some (checkItems space ignoreExtraneous ctx index items item) := by
  induction items generalizing index with
  | nil => rw [itemsWithin, checkItems]
  | cons value rest hi =>
    obtain ⟨hv, hr⟩ := List.forall_mem_cons.mp h
    rw [itemsWithin, checkItems, hv, hi hr]
    rfl

theorem slotsWithin_eq {index : Nat} {items : List Json} {slots : List Node}
    (h : ∀ value ∈ items, ∀ slot ∈ slots, run value slot.required =
      some (check space ignoreExtraneous ctx none value slot.required)) :
    slotsWithin run index items slots =
      some (checkSlots space ignoreExtraneous ctx index items slots) := by
  induction items generalizing index slots with
  | nil => simp [slotsWithin, checkSlots]
  | cons value rest hi =>
    cases slots with
    | nil => simp [slotsWithin, checkSlots]
    | cons slot remaining =>
      have hv := h value List.mem_cons_self slot List.mem_cons_self
      have hr : ∀ value ∈ rest, ∀ slot ∈ remaining, run value slot.required =
          some (check space ignoreExtraneous ctx none value slot.required) :=
        fun value hv slot hs => h value (.tail _ hv) slot (.tail _ hs)
      rw [slotsWithin, checkSlots, hv, hi hr]
      rfl

theorem unionWithin_eq {value : Json} {members : List Node}
    (h : ∀ member ∈ members,
      run value member = some (check space ignoreExtraneous ctx none value member)) :
    unionWithin run value members = some (checkUnion space ignoreExtraneous ctx value members) := by
  induction members with
  | nil => rw [unionWithin, checkUnion]
  | cons member rest hi =>
    obtain ⟨hm, hr⟩ := List.forall_mem_cons.mp h
    rw [unionWithin, checkUnion, hm, hi hr]
    cases check space ignoreExtraneous ctx none value member <;> rfl

theorem membersWithin_eq {entries : List (String × Json)} {members : List (String × Node)}
    (hp : ∀ member ∈ members, ∀ value, entries.lookup member.fst = some value →
      run value member.snd.required =
        some (check space ignoreExtraneous ctx none value member.snd.required))
    (ha : ∀ member ∈ members,
      isAbsent member.snd = some (ctx.acceptsAbsence space.declarations member.snd)) :
    membersWithin run isAbsent entries members =
      some (checkMembers space ignoreExtraneous ctx entries members) := by
  induction members with
  | nil => rw [membersWithin, checkMembers]
  | cons member rest hi =>
    obtain ⟨key, member⟩ := member
    obtain ⟨hm, hp⟩ := List.forall_mem_cons.mp hp
    obtain ⟨hn, ha⟩ := List.forall_mem_cons.mp ha
    rw [membersWithin, hi hp ha]
    cases hl : entries.lookup key with
    | some value =>
      rw [checkMembers_of_lookup hl, memberWithin, hm value hl]
      rfl
    | none =>
      rw [checkMembers_of_missing hl, memberWithin, hn]
      rfl

end Parts

section Rank

variable {space : Typespace} {levels : Nat} {value part : Json} {node other : Node}

-- How deep calls for a node are nested at most that take nothing from the value. The levels are those
-- of any node that a name stands for.
def nodeRank (space : Typespace) (levels : Nat) (node : Node) : Nat :=
  space.aliasHeight node * (levels + 1) + node.depth

-- How deep calls for a value and a node are nested at most.
def callRank (space : Typespace) (levels : Nat) (value : Json) (node : Node) : Nat :=
  value.depth * ((space.names.length + 1) * (levels + 1)) + nodeRank space levels node

-- The nodes behind names are no deeper than all of them are.
theorem depth_le_of_resolve? {name : String} (hl : space.declarations.depth ≤ levels)
    (h : space.resolve? name = some node) : node.depth ≤ levels :=
  Nat.le_trans (Declarations.depth_le_of_resolve? h) hl

-- A greater leading digit outweighs the digit behind it.
theorem digits_lt {high high' low low' base : Nat} (hh : high < high') (hl : low < base) :
    high * base + low < high' * base + low' := by
  have h := Nat.mul_le_mul_right base hh
  rw [Nat.succ_mul] at h
  omega

theorem nodeRank_lt (hn : node.depth ≤ levels) :
    nodeRank space levels node < (space.names.length + 1) * (levels + 1) := by
  have hh := Nat.lt_succ_of_le (space.aliasHeight_le_length node)
  have h := @digits_lt _ _ node.depth 0 (levels + 1) hh (Nat.lt_succ_of_le hn)
  exact h

theorem nodeRank_lt_reference {name : String} (hl : space.declarations.depth ≤ levels)
    (h : space.resolve? name = some node) :
    nodeRank space levels node < nodeRank space levels (.reference name) :=
  digits_lt (space.aliasHeight_lt_of_resolve? h) (Nat.lt_succ_of_le (depth_le_of_resolve? hl h))

theorem nodeRank_lt_union {member : Node} {members : List Node} (h : member ∈ members) :
    nodeRank space levels member < nodeRank space levels (.union members) := by
  have hh := Nat.mul_le_mul_right (levels + 1) (space.aliasHeight_le_of_mem h)
  have hd := Node.depth_le_partsDepth h
  simp only [nodeRank, Node.depth]
  omega

theorem nodeRank_lt_optional : nodeRank space levels node < nodeRank space levels (.optional node) := by
  simp only [nodeRank, Node.depth, space.aliasHeight_optional]
  omega

theorem callRank_lt_of_depth_lt (hv : part.depth < value.depth) (hn : node.depth ≤ levels) :
    callRank space levels part node < callRank space levels value other :=
  digits_lt hv (nodeRank_lt hn)

theorem nodeRank_lt_callRank (hv : 0 < value.depth) (hn : node.depth ≤ levels) :
    nodeRank space levels node < callRank space levels value other := by
  have hr : nodeRank space levels node < (space.names.length + 1) * (levels + 1) := nodeRank_lt hn
  have h := @digits_lt _ _ _ (nodeRank space levels other) _ hv hr
  rwa [Nat.zero_mul, Nat.zero_add] at h

theorem callRank_lt_of_nodeRank_lt (h : nodeRank space levels node < nodeRank space levels other) :
    callRank space levels value node < callRank space levels value other :=
  Nat.add_lt_add_left h _

end Rank

section Check

variable {space : Typespace} {levels calls : Nat} {ctx : Context} {node : Node}

theorem acceptsAbsenceWithin_eq (hl : space.declarations.depth ≤ levels)
    (h : nodeRank space levels node < calls) :
    ctx.acceptsAbsenceWithin space.declarations calls node =
      some (ctx.acceptsAbsence space.declarations node) := by
  induction calls generalizing ctx node with
  | zero => cases h
  | succ calls hi =>
    have enough {other : Node} (ho : nodeRank space levels other < nodeRank space levels node) :
        nodeRank space levels other < calls :=
      Nat.lt_of_lt_of_le ho (Nat.le_of_lt_succ h)
    cases node with
    | reference name =>
      rw [Context.acceptsAbsenceWithin]
      cases hr : ctx.reference space.declarations name with
      | node resolved inside =>
        have hs := (Context.reference_eq_node_iff.mp hr).left
        rw [Context.acceptsAbsence_reference_of_node hr]
        exact hi (enough (nodeRank_lt_reference hl hs))
      | cycle | unresolved =>
        rw [Context.acceptsAbsence_reference_eq_false (by simp [hr])]
    | union members =>
      have hm : ∀ member ∈ members, ctx.acceptsAbsenceWithin space.declarations calls member =
          some (ctx.acceptsAbsence space.declarations member) :=
        fun member hm => hi (enough (nodeRank_lt_union hm))
      rw [Context.acceptsAbsenceWithin, Context.acceptsAbsence]
      exact Context.anyM_acceptsAbsence hm
    | primitive | literal | list | tuple | optional | struct =>
      rw [Context.acceptsAbsenceWithin, Context.acceptsAbsence]

theorem checkWithin_reference_of_resolve? {space : Declarations} {name : String} {ignoreExtraneous : Bool}
    {label : Option String} {value : Json} (h : space.resolve? name = some node) :
    checkWithin space ignoreExtraneous (calls + 1) ctx label value (.reference name) =
      checkWithin space ignoreExtraneous calls (ctx.entering name) (label.getD name) value node := by
  rw [checkWithin, Context.entering]
  by_cases hs : name ∈ ctx.seen
  case pos =>
    have hr := Context.reference_eq_cycle_iff.mpr ⟨h, hs, rfl⟩
    simp only [hr, if_pos hs]
  case neg =>
    have hr := Context.reference_eq_node_iff.mpr ⟨h, hs, rfl⟩
    simp only [hr, if_neg hs]

-- Nothing but the refusal of alias cycles keeps a check from going on for ever.
theorem checkWithin_of_resolve?_self {space : Declarations} {name : String} {ignoreExtraneous : Bool}
    {label : Option String} {value : Json} (h : space.resolve? name = some (.reference name)) :
    checkWithin space ignoreExtraneous calls ctx label value (.reference name) = none := by
  induction calls generalizing ctx label with
  | zero => rw [checkWithin]
  | succ calls hi =>
    rw [checkWithin_reference_of_resolve? h]
    exact hi

theorem checkWithin_of_callRank_lt {ignoreExtraneous : Bool} {label : Option String} {value : Json}
    (hl : space.declarations.depth ≤ levels) (hn : node.depth ≤ levels)
    (h : callRank space levels value node < calls) :
    checkWithin space.declarations ignoreExtraneous calls ctx label value node =
      some (check space ignoreExtraneous ctx label value node) := by
  induction calls generalizing ctx label value node with
  | zero => cases h
  | succ calls hi =>
    have enough {part : Json} {other : Node}
        (ho : callRank space levels part other < callRank space levels value node) :
        callRank space levels part other < calls :=
      Nat.lt_of_lt_of_le ho (Nat.le_of_lt_succ h)
    cases node with
    | primitive | literal => rw [checkWithin, check]
    | reference name =>
      cases hr : space.resolve? name with
      | none =>
        have hu : ctx.reference space.declarations name = .unresolved :=
          Context.reference_eq_unresolved_iff.mpr (Declarations.resolve?_eq_none_iff.mp hr)
        simp only [checkWithin, hu, check_reference_of_unresolved hr]
      | some resolved =>
        have hd := depth_le_of_resolve? hl hr
        have hc := enough (callRank_lt_of_nodeRank_lt (nodeRank_lt_reference hl hr))
        rw [check_reference_of_resolve? hr, checkWithin_reference_of_resolve? hr]
        exact hi hd hc
    | list item =>
      have hi' : item.depth ≤ levels := Nat.le_of_succ_le hn
      cases value with
      | array items =>
        rw [checkWithin, check]
        refine itemsWithin_eq fun part hp => hi hi' (enough ?_)
        exact callRank_lt_of_depth_lt (Json.depth_item_lt hp) hi'
      | _ => rw [checkWithin, check] <;> simp
    | tuple slots =>
      have hs : ∀ slot ∈ slots, slot.required.depth ≤ levels := by
        intro slot hm
        have hd := Nat.le_trans slot.depth_required_le (Node.depth_le_partsDepth hm)
        exact Nat.le_trans hd (Nat.le_of_succ_le hn)
      cases value with
      | array items =>
        simp only [checkWithin, check]
        split
        case isTrue => rfl
        case isFalse =>
          refine slotsWithin_eq fun part hp slot hm => hi (hs slot hm) (enough ?_)
          exact callRank_lt_of_depth_lt (Json.depth_item_lt hp) (hs slot hm)
      | _ => rw [checkWithin, check] <;> simp
    | union members =>
      have hm : ∀ member ∈ members,
          checkWithin space.declarations ignoreExtraneous calls ctx none value member =
            some (check space ignoreExtraneous ctx none value member) := by
        intro member hm
        have hd := Nat.le_trans (Node.depth_le_partsDepth hm) (Nat.le_of_succ_le hn)
        exact hi hd (enough (callRank_lt_of_nodeRank_lt (nodeRank_lt_union hm)))
      rw [checkWithin, check, unionWithin_eq hm]
      cases checkUnion space ignoreExtraneous ctx value members <;> rfl
    | optional inner =>
      rw [checkWithin, check]
      exact hi (Nat.le_of_succ_le hn) (enough (callRank_lt_of_nodeRank_lt nodeRank_lt_optional))
    | struct members =>
      cases value with
      | object entries =>
        have hd : ∀ member ∈ members, member.snd.depth ≤ levels := fun member hm =>
          Nat.le_trans (Node.depth_le_fieldsDepth hm) (Nat.le_of_succ_le hn)
        rw [checkWithin, check, membersWithin_eq]
        case hp =>
          intro member hm part hl'
          have hr := Nat.le_trans member.snd.depth_required_le (hd member hm)
          exact hi hr (enough (callRank_lt_of_depth_lt (Json.depth_entry_lt hl') hr))
        case ha =>
          intro member hm
          have hv : 0 < (Json.object entries).depth := Nat.succ_pos _
          refine acceptsAbsenceWithin_eq hl (Nat.lt_of_lt_of_le ?_ (Nat.le_of_lt_succ h))
          exact nodeRank_lt_callRank hv (hd member hm)
        rfl
      | _ => rw [checkWithin, check] <;> simp

-- How deep calls for a value and a node may be nested: at each level of the value, each name is passed
-- once at most, and behind each name there is a node to go through.
def callDepth (space : Declarations) (value : Json) (node : Node) : Nat :=
  (value.depth + 1) * ((space.names.length + 1) * (max space.depth node.depth + 1))

theorem checkWithin_eq_check (space : Typespace) (ignoreExtraneous : Bool) (ctx : Context)
    (label : Option String) (value : Json) (node : Node) {calls : Nat}
    (h : callDepth space.declarations value node ≤ calls) :
    checkWithin space.declarations ignoreExtraneous calls ctx label value node =
      some (check space ignoreExtraneous ctx label value node) := by
  let levels := max space.declarations.depth node.depth
  have hl : space.declarations.depth ≤ levels := Nat.le_max_left ..
  have hn : node.depth ≤ levels := Nat.le_max_right ..
  have hr : callRank space levels value node < callDepth space.declarations value node := by
    rw [callDepth, Nat.succ_mul]
    exact Nat.add_lt_add_left (nodeRank_lt hn) _
  exact checkWithin_of_callRank_lt hl hn (Nat.lt_of_lt_of_le hr h)

-- A tree comes back inside of itself through a name for its branches, so one call is not enough for it.
theorem checkWithin_eq_check_tree :
    ∃ space value,
      Typespace.compile
        [("tree", .object [("kids", .string "branches|null")]), ("branches", .string "tree[]")] =
        .ok space ∧
      checkWithin space.declarations false 1 {} none value (.reference "tree") = none ∧
      callDepth space.declarations value (.reference "tree") ≤ 60 ∧
      checkWithin space.declarations false 60 {} none value (.reference "tree") =
        some (check space false {} none value (.reference "tree")) := by
  have ha : Declarations.aliasCycle?
      [⟨"tree", .object [("kids", .string "branches|null")],
        .struct [("kids", .union [.reference "branches", .primitive .null])]⟩,
        ⟨"branches", .string "tree[]", .list (.reference "tree")⟩] = none := by cbv
  refine ⟨⟨_, AliasStep.wellFounded_of_aliasCycle? ha⟩,
    .object [("kids", .array [.object [("kids", .null)]])], ?hs, ?hn, ?hc,
    checkWithin_eq_check _ _ _ _ _ _ ?hc⟩
  case hs => exact Typespace.compile_eq_ok_iff.mpr ⟨by cbv, by cbv, ha⟩
  case hn => rfl
  case hc => cbv

end Check

end Validation

end JsonShape
