import JsonShape.Generation.Synthesis
import JsonShape.Proofs.Typespace.Induction

namespace JsonShape

-- A cycle that no union can avoid, with nothing to stand for it.
def Halt.IsRequiredCycle : Halt → Prop
  | cycle _      => False
  | failed error => error.isRequiredCycle

namespace Synthesis

variable {space : Declarations} {substitute : Option Json} {ctx : Context}

theorem ofCycle_eq_ok {cycle : Cycle} {result : Option Json} (h : ofCycle substitute cycle = .ok result) :
    cycle.kind = .required ∧ substitute.isSome ∧ result = substitute := by
  simp only [ofCycle] at h
  split at h <;> cases h
  case h_2 hk => exact ⟨hk, rfl, rfl⟩

section Reference

variable {name : String}

theorem ofNode_reference_of_node {node : Node} {inside : Context}
    (h : ctx.reference space name = .node node inside) :
    ofNode space substitute ctx (.reference name) = ofNode space substitute inside node := by
  rw [ofNode]
  split <;> simp_all

theorem ofNode_reference_of_cycle {node : Node} {cycle : Cycle}
    (h : ctx.reference space name = .cycle node cycle) :
    ofNode space substitute ctx (.reference name) = ofCycle substitute cycle := by
  rw [ofNode]
  split <;> simp_all

theorem ofNode_reference_of_unresolved (h : ctx.reference space name = .unresolved) :
    ofNode space substitute ctx (.reference name) =
      ungeneratable name s!"'{name}' is not declared in the typespace." := by
  rw [ofNode]
  split <;> simp_all

-- Without a substitute, a name that is met again gives nothing.
theorem ofNode_reference_eq_ok {result : Option Json}
    (h : ofNode space none ctx (.reference name) = .ok result) :
    ∃ node inside, ctx.reference space name = .node node inside ∧
      ofNode space none inside node = .ok result := by
  cases hr : ctx.reference space name with
  | node node inside => exact ⟨node, inside, rfl, ofNode_reference_of_node hr ▸ h⟩
  | cycle node cycle =>
    rw [ofNode_reference_of_cycle hr] at h
    cases (ofCycle_eq_ok h).right.left
  | unresolved =>
    rw [ofNode_reference_of_unresolved hr] at h
    cases h

end Reference

theorem ofNode_tuple {slots : List Node} :
    ofNode space substitute ctx (.tuple slots) =
      (ofSlots space substitute ctx slots).map fun items => some (.array items) := by
  rw [ofNode]
  split <;> simp_all [Except.map]

theorem ofNode_struct {members : List (String × Node)} :
    ofNode space substitute ctx (.struct members) =
      (ofMembers space substitute ctx members).map fun entries => some (.object entries) := by
  rw [ofNode]
  split <;> simp_all [Except.map]

theorem ofNode_tuple_eq_ok {slots : List Node} {result : Option Json}
    (h : ofNode space substitute ctx (.tuple slots) = .ok result) :
    ∃ items, ofSlots space substitute ctx slots = .ok items ∧ result = some (.array items) := by
  rw [ofNode_tuple] at h
  cases hs : ofSlots space substitute ctx slots <;> rw [hs] at h <;> cases h
  exact ⟨_, rfl, rfl⟩

theorem ofNode_struct_eq_ok {members : List (String × Node)} {result : Option Json}
    (h : ofNode space substitute ctx (.struct members) = .ok result) :
    ∃ entries, ofMembers space substitute ctx members = .ok entries ∧ result = some (.object entries) := by
  rw [ofNode_struct] at h
  cases hs : ofMembers space substitute ctx members <;> rw [hs] at h <;> cases h
  exact ⟨_, rfl, rfl⟩

theorem ofSlots_eq_ok {slots : List Node} {items : List Json}
    (h : ofSlots space substitute ctx slots = .ok items) :
    items.length = (slots.takeWhile fun slot => ¬slot.isOptional).length ∧
      ∀ filled ∈ items.zip slots, ofNode space substitute ctx filled.snd = .ok (some filled.fst) := by
  induction slots generalizing items with
  | nil =>
    rw [ofSlots] at h
    cases h
    simp
  | cons slot rest hi =>
    rw [ofSlots] at h
    split at h
    case isTrue ho =>
      cases h
      simp [ho]
    case isFalse ho =>
      split at h
      case h_1 => cases h
      case h_2 => cases h
      case h_3 item hn =>
        split at h
        case h_1 => cases h
        case h_2 others hs =>
          cases h
          obtain ⟨hl, hf⟩ := hi hs
          refine ⟨by simp [ho, hl], ?_⟩
          rw [List.zip_cons_cons, List.forall_mem_cons]
          exact ⟨hn, hf⟩

-- Slot by slot, the items are what the slots in front of the first optional one give.
theorem getElem?_ofSlots {slots : List Node} {items : List Json} {i : Nat} {slot : Node}
    (h : ofSlots space substitute ctx slots = .ok items)
    (hs : (slots.takeWhile fun slot => ¬slot.isOptional)[i]? = some slot) :
    ∃ item, items[i]? = some item ∧ ofNode space substitute ctx slot = .ok (some item) := by
  obtain ⟨hl, hf⟩ := ofSlots_eq_ok h
  obtain ⟨hi, rfl⟩ := List.getElem?_eq_some_iff.mp hs
  have hp := List.prefix_iff_getElem?.mp (List.takeWhile_prefix _) i hi
  have hv := List.getElem?_eq_getElem (hl.symm ▸ hi : i < items.length)
  refine ⟨_, hv, hf ⟨_, _⟩ ?_⟩
  exact List.mem_of_getElem? (List.getElem?_zip_eq_some.mpr ⟨hv, hp⟩)

theorem getElem?_takeWhile_of_ofSlots {slots : List Node} {items : List Json} {i : Nat} {slot : Node}
    {item : Json} (h : ofSlots space substitute ctx slots = .ok items) (hv : items[i]? = some item)
    (hs : slots[i]? = some slot) :
    (slots.takeWhile fun slot => ¬slot.isOptional)[i]? = some slot := by
  obtain ⟨hl, _⟩ := ofSlots_eq_ok h
  obtain ⟨hi, _⟩ := List.getElem?_eq_some_iff.mp hv
  rw [hl] at hi
  rw [List.getElem?_eq_getElem hi, ← List.prefix_iff_getElem?.mp (List.takeWhile_prefix _) i hi, hs]

-- Slots that may be cut off, and those behind them, are not looked at.
theorem ofSlots_takeWhile {slots : List Node} :
    ofSlots space substitute ctx (slots.takeWhile fun slot => ¬slot.isOptional) =
      ofSlots space substitute ctx slots := by
  induction slots with
  | nil => rfl
  | cons slot rest hi =>
    by_cases ho : slot.isOptional
    case pos =>
      rw [List.takeWhile_cons_of_neg (by simpa using ho), ofSlots, ofSlots, if_pos ho]
    case neg =>
      rw [List.takeWhile_cons_of_pos (by simpa using ho), ofSlots, ofSlots, hi]

-- What the first member of a union gives decides how the union goes on: it ends with a value, or notes
-- absence or a failure that it need not end with and turns to the other members, or ends with the
-- failure.
theorem ofUnion_cons {absent : Bool} {failure : Option GenerateError} {member : Node}
    {rest : List Node} :
    (∃ value, ofNode space substitute (ctx.alternative (!rest.isEmpty)) member = .ok (some value) ∧
      ofUnion space substitute ctx absent failure (member :: rest) = .ok (some value)) ∨
    (ofNode space substitute (ctx.alternative (!rest.isEmpty)) member = .ok none ∧
      ofUnion space substitute ctx absent failure (member :: rest) =
        ofUnion space substitute ctx true failure rest) ∨
    (∃ halt failure', ofNode space substitute (ctx.alternative (!rest.isEmpty)) member = .error halt ∧
      ¬halt.IsRequiredCycle ∧
      (failure' = failure ∨
        ∃ definition reason, failure' = failure.or (some (.ungeneratable definition reason))) ∧
      ofUnion space substitute ctx absent failure (member :: rest) =
        ofUnion space substitute ctx absent failure' rest) ∨
    (∃ halt, ofNode space substitute (ctx.alternative (!rest.isEmpty)) member = .error halt ∧
      (rest = [] ∧ absent = false ∨ halt.IsRequiredCycle) ∧
      ofUnion space substitute ctx absent failure (member :: rest) = .error halt) := by
  rw [ofUnion]
  split
  case h_1 value hn => exact .inl ⟨value, hn, rfl⟩
  case h_2 hn       => exact .inr (.inl ⟨hn, rfl⟩)
  case h_3 hn       => exact .inr (.inr (.inl ⟨_, _, hn, Bool.false_ne_true, .inr ⟨_, _, rfl⟩, rfl⟩))
  case h_4 error hu hn =>
    cases error with
    | ungeneratable => exact absurd rfl (hu _ _)
    | requiredCycle => exact .inr (.inr (.inr ⟨_, hn, .inr rfl, rfl⟩))
  case h_5 cycle hn =>
    split
    case isTrue  => exact .inr (.inr (.inl ⟨_, _, hn, not_false, .inl rfl, rfl⟩))
    case isFalse h =>
      simp only [not_or, Decidable.not_not, List.isEmpty_iff, Bool.not_eq_true] at h
      exact .inr (.inr (.inr ⟨_, hn, .inl h, rfl⟩))

-- The union takes the value from this member, the first one that has a value.
inductive Picks (space : Declarations) (substitute : Option Json) (ctx : Context) (value : Json) :
    List Node → Node → Bool → Prop
  | here  : (ofNode space substitute (ctx.alternative (!rest.isEmpty)) member = .ok (some value)) →
      Picks space substitute ctx value (member :: rest) member (!rest.isEmpty)
  | later : (∀ value, ofNode space substitute (ctx.alternative (!rest.isEmpty)) first ≠ .ok (some value)) →
      (Picks space substitute ctx value rest member hasMore) →
      Picks space substitute ctx value (first :: rest) member hasMore

section Picks

variable {members : List Node} {member : Node} {hasMore : Bool} {value : Json}

theorem Picks.mem (h : Picks space substitute ctx value members member hasMore) : member ∈ members := by
  induction h with
  | here => exact .head _
  | later _ _ hi => exact .tail _ hi

theorem Picks.ofNode_eq (h : Picks space substitute ctx value members member hasMore) :
    ofNode space substitute (ctx.alternative hasMore) member = .ok (some value) := by
  induction h with
  | here hv => exact hv
  | later _ _ hi => exact hi

theorem exists_picks_of_ofUnion {absent : Bool} {failure : Option GenerateError}
    (h : ofUnion space substitute ctx absent failure members = .ok (some value)) :
    ∃ member hasMore, Picks space substitute ctx value members member hasMore := by
  induction members generalizing absent failure with
  | nil =>
    rw [ofUnion, ofExhausted] at h
    split at h <;> cases h
  | cons first rest hi =>
    rcases ofUnion_cons with ⟨_, hn, hu⟩ | ⟨hn, hu⟩ | ⟨_, _, hn, _, _, hu⟩ | ⟨_, _, _, hu⟩ <;> rw [hu] at h
    case inl =>
      cases h
      exact ⟨first, _, .here hn⟩
    case inr.inr.inr => cases h
    all_goals
      obtain ⟨member, hasMore, hp⟩ := hi h
      exact ⟨member, hasMore, .later (by simp [hn]) hp⟩

end Picks

-- A value of a union is the value of one of its members.
theorem ofUnion_eq_ok_some {absent : Bool} {failure : Option GenerateError} {members : List Node}
    {value : Json} (h : ofUnion space substitute ctx absent failure members = .ok (some value)) :
    ∃ member ∈ members, ∃ hasMore,
      ofNode space substitute (ctx.alternative hasMore) member = .ok (some value) := by
  obtain ⟨member, hasMore, hp⟩ := exists_picks_of_ofUnion h
  exact ⟨member, hp.mem, hasMore, hp.ofNode_eq⟩

-- A union gives absence if that was met before, or if one of its members gives it.
theorem ofUnion_eq_ok_none {absent : Bool} {failure : Option GenerateError} {members : List Node}
    (h : ofUnion space substitute ctx absent failure members = .ok none) :
    absent ∨ ∃ member ∈ members, ∃ hasMore,
      ofNode space substitute (ctx.alternative hasMore) member = .ok none := by
  induction members generalizing absent failure with
  | nil =>
    rw [ofUnion, ofExhausted] at h
    split at h
    case isTrue ha => exact .inl ha
    case isFalse   => cases h
  | cons member rest hi =>
    rcases ofUnion_cons with ⟨_, _, hu⟩ | ⟨hn, hu⟩ | ⟨_, _, _, _, _, hu⟩ | ⟨_, _, _, hu⟩ <;> rw [hu] at h
    case inl => cases h
    case inr.inl => exact .inr ⟨member, .head _, _, hn⟩
    case inr.inr.inl =>
      refine (hi h).imp_right ?_
      rintro ⟨other, hm, h⟩
      exact ⟨other, .tail _ hm, h⟩
    case inr.inr.inr => cases h

theorem names_of_ofMembers {members : List (String × Node)} {entries : List (String × Json)}
    (h : ofMembers space substitute ctx members = .ok entries) :
    ∀ key ∈ Members.names entries, key ∈ Members.names members := by
  induction members generalizing entries with
  | nil =>
    rw [ofMembers] at h
    cases h
    simp [Members.names]
  | cons member rest hi =>
    rw [ofMembers] at h
    split at h
    case isTrue => exact fun key hk => .tail _ (hi h key hk)
    case isFalse =>
      split at h
      case h_1 => cases h
      case h_2 value _ =>
        split at h
        case h_1 => cases h
        case h_2 hs =>
          cases value <;> cases h
          case none => exact fun key hk => .tail _ (hi hs key hk)
          case some => exact List.forall_mem_cons.mpr ⟨.head _, fun key hk => .tail _ (hi hs key hk)⟩

-- An object holds under the name of each member what the member gives, if no name comes twice.
theorem lookup_of_ofMembers {members : List (String × Node)} {entries : List (String × Json)}
    (hd : Members.Distinct members) (h : ofMembers space substitute ctx members = .ok entries) :
    ∀ member ∈ members,
      if member.snd.isOptional then entries.lookup member.fst = none
      else ofNode space substitute ctx member.snd = .ok (entries.lookup member.fst) := by
  induction members generalizing entries with
  | nil => simp
  | cons member rest hi =>
    obtain ⟨key, member⟩ := member
    obtain ⟨hk, hd⟩ := List.nodup_cons.mp hd
    have hn {others} (hs : ofMembers space substitute ctx rest = .ok others) : others.lookup key = none :=
      Members.lookup_eq_none_iff.mpr (mt (names_of_ofMembers hs key) hk)
    rw [ofMembers] at h
    split at h
    case isTrue ho => exact List.forall_mem_cons.mpr ⟨by simp [ho, hn h], hi hd h⟩
    case isFalse ho =>
      split at h
      case h_1 => cases h
      case h_2 value hv =>
        split at h
        case h_1 => cases h
        case h_2 others hs =>
          cases value <;> cases h
          case none => exact List.forall_mem_cons.mpr ⟨by simp [ho, hv, hn hs], hi hd hs⟩
          case some value =>
            refine List.forall_mem_cons.mpr ⟨by simp [ho, hv], fun other hm => ?_⟩
            have hne : key ≠ other.fst := fun he => hk (List.mem_map.mpr ⟨other, hm, he.symm⟩)
            simpa only [Option.elim_some, Members.lookup_cons, if_neg hne] using hi hd hs other hm

section Failure

theorem ofSlots_eq_error {slots : List Node} {halt : Halt}
    (h : ofSlots space substitute ctx slots = .error halt) :
    ∃ slot ∈ slots, ¬slot.isOptional ∧ (ofNode space substitute ctx slot = .error halt ∨
      ofNode space substitute ctx slot = .ok none ∧ halt = .failed (unrepresentable slot)) := by
  induction slots with
  | nil =>
    rw [ofSlots] at h
    cases h
  | cons slot rest hi =>
    rw [ofSlots] at h
    split at h
    case isTrue => cases h
    case isFalse ho =>
      split at h
      case h_1 hn =>
        cases h
        exact ⟨slot, .head _, ho, .inl hn⟩
      case h_2 hn =>
        cases h
        exact ⟨slot, .head _, ho, .inr ⟨hn, rfl⟩⟩
      case h_3 =>
        split at h
        case h_2 => cases h
        case h_1 hs =>
          cases h
          obtain ⟨other, hm, hf⟩ := hi hs
          exact ⟨other, .tail _ hm, hf⟩

theorem ofMembers_eq_error {members : List (String × Node)} {halt : Halt}
    (h : ofMembers space substitute ctx members = .error halt) :
    ∃ member ∈ members, ¬member.snd.isOptional ∧
      ofNode space substitute ctx member.snd = .error halt := by
  induction members with
  | nil =>
    rw [ofMembers] at h
    cases h
  | cons member rest hi =>
    rw [ofMembers] at h
    split at h
    case isTrue =>
      obtain ⟨other, hm, hf⟩ := hi h
      exact ⟨other, .tail _ hm, hf⟩
    case isFalse ho =>
      split at h
      case h_1 hn =>
        cases h
        exact ⟨member, .head _, ho, hn⟩
      case h_2 =>
        split at h
        case h_2 => cases h
        case h_1 hs =>
          cases h
          obtain ⟨other, hm, hf⟩ := hi hs
          exact ⟨other, .tail _ hm, hf⟩

-- A union fails as one of its members does, or for want of a value. Only a required cycle ends it in front
-- of other members.
theorem ofUnion_eq_error {absent : Bool} {failure : Option GenerateError} {members : List Node}
    {halt : Halt} (hf : ∀ error ∈ failure, ¬error.isRequiredCycle)
    (h : ofUnion space substitute ctx absent failure members = .error halt) :
    (∃ before member rest, members = before ++ member :: rest ∧
      ofNode space substitute (ctx.alternative (!rest.isEmpty)) member = .error halt ∧
      (rest = [] ∨ halt.IsRequiredCycle)) ∨
    ∃ definition reason, halt = .failed (.ungeneratable definition reason) := by
  induction members generalizing absent failure with
  | nil =>
    rw [ofUnion, ofExhausted] at h
    split at h <;> cases h
    right
    cases failure with
    | none       => exact ⟨_, _, rfl⟩
    | some error =>
      cases error with
      | ungeneratable definition reason => exact ⟨definition, reason, rfl⟩
      | requiredCycle                   => exact absurd rfl (hf _ rfl)
  | cons member rest hi =>
    -- What one of the other members ends with, it ends with behind this one, too.
    have hr : (∃ before other others, rest = before ++ other :: others ∧
          ofNode space substitute (ctx.alternative (!others.isEmpty)) other = .error halt ∧
          (others = [] ∨ halt.IsRequiredCycle)) →
        ∃ before other others, member :: rest = before ++ other :: others ∧
          ofNode space substitute (ctx.alternative (!others.isEmpty)) other = .error halt ∧
          (others = [] ∨ halt.IsRequiredCycle) := by
      rintro ⟨before, other, others, rfl, ho⟩
      exact ⟨member :: before, other, others, rfl, ho⟩
    rcases ofUnion_cons with ⟨_, _, hu⟩ | ⟨_, hu⟩ | ⟨_, failure', _, _, hc, hu⟩ | ⟨_, hn, he, hu⟩ <;>
      rw [hu] at h
    case inl => cases h
    case inr.inl => exact (hi hf h).imp_left hr
    case inr.inr.inl =>
      have hf' : ∀ error ∈ failure', ¬error.isRequiredCycle := by
        rcases hc with rfl | ⟨_, _, rfl⟩
        case inl => exact hf
        case inr =>
          intro error he
          cases failure <;> cases he
          case none => exact Bool.false_ne_true
          case some => exact hf error rfl
      exact (hi hf' h).imp_left hr
    case inr.inr.inr =>
      cases h
      exact .inl ⟨[], member, rest, rfl, hn, he.imp_left And.left⟩

-- With another member to pick, no cycle has to stay.
theorem not_isRequiredCycle {node : Node} {halt : Halt} (he : 0 < ctx.escapes ∨ substitute.isSome)
    (h : ofNode space substitute ctx node = .error halt) : ¬halt.IsRequiredCycle := by
  induction ctx, node using Context.induction space generalizing halt with
  | primitive ctx keyword =>
    rw [ofNode] at h
    cases keyword <;> cases h <;> exact Bool.false_ne_true
  | literal | list =>
    rw [ofNode] at h
    cases h
  | reference ctx name hi =>
    cases hr : ctx.reference space name with
    | node node inside =>
      rw [ofNode_reference_of_node hr] at h
      obtain ⟨_, _, hin⟩ := Context.reference_eq_node_iff.mp hr
      exact hi node inside hr (hin ▸ he) h
    | cycle node cycle =>
      obtain ⟨_, _, hc⟩ := Context.reference_eq_cycle_iff.mp hr
      rw [ofNode_reference_of_cycle hr] at h
      simp only [ofCycle] at h
      split at h <;> cases h
      case h_1 => exact not_false
      case h_3 hk => simp_all
    | unresolved =>
      rw [ofNode_reference_of_unresolved hr] at h
      cases h
      exact Bool.false_ne_true
  | tuple ctx slots hi =>
    rw [ofNode_tuple] at h
    cases hs : ofSlots space substitute ctx slots <;> rw [hs] at h <;> cases h
    obtain ⟨slot, hm, _, hf⟩ := ofSlots_eq_error hs
    cases hf
    case inl hf => exact hi slot hm he hf
    case inr hf => exact hf.right ▸ Bool.false_ne_true
  | union ctx members hi =>
    rw [ofNode] at h
    rcases ofUnion_eq_error (by simp) h with ⟨before, member, rest, rfl, hf, _⟩ | ⟨_, _, rfl⟩
    case inl =>
      refine hi member (by simp) _ (he.imp_left fun h => ?_) hf
      exact Nat.lt_of_lt_of_le h Context.escapes_le_alternative
    case inr => exact Bool.false_ne_true
  | optional ctx inner hi =>
    rw [ofNode] at h
    exact hi he h
  | struct ctx members hi =>
    rw [ofNode_struct] at h
    cases hs : ofMembers space substitute ctx members <;> rw [hs] at h <;> cases h
    obtain ⟨member, hm, _, hf⟩ := ofMembers_eq_error hs
    exact hi member hm he hf

-- Behind absence, or with a member that fails in no other way, a union fails with required cycles
-- alone.
theorem isRequiredCycle_of_ofUnion {absent : Bool} {failure : Option GenerateError}
    {members : List Node} {halt : Halt}
    (h : absent ∨ ∃ member ∈ members, ∀ hasMore halt,
      ofNode space substitute (ctx.alternative hasMore) member = .error halt → halt.IsRequiredCycle)
    (hu : ofUnion space substitute ctx absent failure members = .error halt) :
    halt.IsRequiredCycle := by
  induction members generalizing absent failure with
  | nil =>
    rw [ofUnion, ofExhausted, if_pos (h.resolve_right (by simp))] at hu
    cases hu
  | cons first rest hi =>
    rcases ofUnion_cons with ⟨_, _, hc⟩ | ⟨_, hc⟩ | ⟨_, _, hn, hr, _, hc⟩ | ⟨_, hn, he, hc⟩ <;>
      rw [hc] at hu
    case inl => cases hu
    case inr.inl => exact hi (.inl rfl) hu
    case inr.inr.inl =>
      refine hi (h.imp_right ?_) hu
      rintro ⟨member, hm, hf⟩
      rcases List.mem_cons.mp hm with rfl | hm
      · exact absurd (hf _ _ hn) hr
      · exact ⟨member, hm, hf⟩
    case inr.inr.inr =>
      cases hu
      rcases he with ⟨rfl, rfl⟩ | he
      case inr => exact he
      case inl =>
        obtain ⟨member, hm, hf⟩ := h.resolve_left Bool.false_ne_true
        cases List.mem_singleton.mp hm
        exact hf _ _ hn

-- Of the failures that are no want of a value, only one of the last member ends a union.
theorem last_of_ofUnion {absent : Bool} {failure : Option GenerateError} {members : List Node}
    {halt : Halt} (hf : ∀ error ∈ failure, ¬error.isRequiredCycle)
    (h : ofUnion space substitute ctx absent failure members = .error halt) :
    (∃ definition reason, halt = .failed (.ungeneratable definition reason)) ∨
    ∃ last, members.getLast? = some last ∧ ofNode space substitute ctx last = .error halt := by
  rcases ofUnion_eq_error hf h with ⟨before, member, rest, rfl, hn, hc⟩ | hu
  case inr => exact .inl hu
  case inl =>
    cases rest with
    | nil            => exact .inr ⟨member, List.getLast?_concat, hn⟩
    | cons next rest =>
      have hc := hc.resolve_left (List.cons_ne_nil next rest)
      exact absurd hc (not_isRequiredCycle (.inl (Nat.succ_pos _)) hn)

-- A required cycle of any member ends a union.
theorem ofUnion_cons_of_isRequiredCycle {absent : Bool} {failure : Option GenerateError} {member : Node}
    {rest : List Node} {halt : Halt}
    (hn : ofNode space substitute (ctx.alternative (!rest.isEmpty)) member = .error halt)
    (hc : halt.IsRequiredCycle) :
    ofUnion space substitute ctx absent failure (member :: rest) = .error halt := by
  rcases ofUnion_cons with ⟨_, ho, _⟩ | ⟨ho, _⟩ | ⟨_, _, ho, hr, _, _⟩ | ⟨_, ho, _, hu⟩ <;>
    cases hn.symm.trans ho
  case inr.inr.inl => exact absurd hc hr
  case inr.inr.inr => exact hu

end Failure

section Success

theorem exists_ofSlots {slots : List Node}
    (h : ∀ slot ∈ slots, ¬slot.isOptional →
      ∃ value, ofNode space substitute ctx slot = .ok (some value)) :
    ∃ items, ofSlots space substitute ctx slots = .ok items := by
  cases hs : ofSlots space substitute ctx slots with
  | ok items => exact ⟨items, rfl⟩
  | error halt =>
    obtain ⟨slot, hm, ho, hf⟩ := ofSlots_eq_error hs
    obtain ⟨value, hv⟩ := h slot hm ho
    cases hf
    case inl hf => cases hv.symm.trans hf
    case inr hf => cases hv.symm.trans hf.left

theorem exists_ofMembers {members : List (String × Node)}
    (h : ∀ member ∈ members, ¬member.snd.isOptional →
      ∃ result, ofNode space substitute ctx member.snd = .ok result) :
    ∃ entries, ofMembers space substitute ctx members = .ok entries := by
  cases hs : ofMembers space substitute ctx members with
  | ok entries => exact ⟨entries, rfl⟩
  | error halt =>
    obtain ⟨member, hm, ho, hf⟩ := ofMembers_eq_error hs
    obtain ⟨result, hr⟩ := h member hm ho
    cases hr.symm.trans hf

-- With more members behind it, a member without a value leaves the union to the others.
theorem exists_ofUnion_cons {absent : Bool} {failure : Option GenerateError} {member : Node}
    {rest : List Node} (hr : rest ≠ [])
    (hv : ∀ value, ofNode space substitute (ctx.alternative (!rest.isEmpty)) member ≠ .ok (some value)) :
    ∃ (absent' : Bool) (failure' : Option GenerateError),
      (absent' ↔ absent ∨ ofNode space substitute (ctx.alternative (!rest.isEmpty)) member = .ok none) ∧
      ofUnion space substitute ctx absent failure (member :: rest) =
        ofUnion space substitute ctx absent' failure' rest := by
  rcases ofUnion_cons with ⟨_, hn, _⟩ | ⟨hn, hu⟩ | ⟨_, failure', hn, _, _, hu⟩ | ⟨_, hn, hc, _⟩
  case inl         => exact absurd hn (hv _)
  case inr.inl     => exact ⟨true, failure, by simp [hn], hu⟩
  case inr.inr.inl => exact ⟨absent, failure', by simp [hn], hu⟩
  case inr.inr.inr =>
    have hc := hc.resolve_left fun he => hr he.left
    have he : 0 < (ctx.alternative (!rest.isEmpty)).escapes := by simp [Context.alternative, hr]
    exact absurd hc (not_isRequiredCycle (.inl he) hn)

-- No failure of another member keeps a union from the value of a member.
theorem exists_ofUnion {absent : Bool} {failure : Option GenerateError} {members : List Node}
    {member : Node} (hm : member ∈ members)
    (h : ∀ hasMore, ∃ value,
      ofNode space substitute (ctx.alternative hasMore) member = .ok (some value)) :
    ∃ value, ofUnion space substitute ctx absent failure members = .ok (some value) := by
  induction members generalizing absent failure with
  | nil => cases hm
  | cons first rest hi =>
    by_cases hv : ∃ value, ofNode space substitute (ctx.alternative (!rest.isEmpty)) first = .ok (some value)
    case pos =>
      obtain ⟨value, hv⟩ := hv
      exact ⟨value, by rw [ofUnion, hv]⟩
    case neg =>
      have hm : member ∈ rest := (List.mem_cons.mp hm).resolve_left fun he => hv (he ▸ h _)
      obtain ⟨absent', failure', _, hu⟩ := exists_ofUnion_cons (List.ne_nil_of_mem hm) (not_exists.mp hv)
      rw [hu]
      exact hi hm

theorem ofUnion_of_picks {absent : Bool} {failure : Option GenerateError} {members : List Node}
    {member : Node} {hasMore : Bool} {value : Json}
    (h : Picks space substitute ctx value members member hasMore) :
    ofUnion space substitute ctx absent failure members = .ok (some value) := by
  induction h generalizing absent failure with
  | here hv => rw [ofUnion, hv]
  | later hf hp hi =>
    obtain ⟨absent', failure', _, hu⟩ := exists_ofUnion_cons (List.ne_nil_of_mem hp.mem) hf
    exact hu.trans hi

end Success

end Synthesis

end JsonShape
