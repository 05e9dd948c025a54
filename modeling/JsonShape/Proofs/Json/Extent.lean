import Mathlib
import JsonShape.Load
import JsonShape.Proofs.Json.CutNumbers

namespace JsonShape

namespace Cursor

open Reading

variable {tail : List Char}

theorem cut_scalar (x : Char) {here next : Cursor} (h : (next.append tail).size < (here.append tail).size)
    (h' : next.size < here.size) :
    Cut tail (scalar x (here.append tail) (next.append tail) h) (scalar x here next h') := by
  unfold scalar
  split
  case h_1 => exact cut_word h h'
  case h_2 => exact cut_word h h'
  case h_3 => exact cut_word h h'
  case h_4 => exact ((cut_string next).map _).weaken _ _
  case h_5 => exact ((cut_number next true).map _).weaken _ _
  case h_6 =>
    split
    case isTrue  => exact (cut_number here false).map _
    case isFalse => exact .of_fail

-- An item starts in front of the tail, as it has a character of its own.
theorem nextItem_of_append {c next : Cursor} {isFirst : Bool} {next_le : next.size ≤ (c.append tail).size}
    (h : (c.append tail).nextItem isFirst = .ok (.item next next_le)) (hl : tail.length < next.size) :
    ∃ here here_le, c.nextItem isFirst = .ok (.item here here_le) ∧ here.append tail = next := by
  rw [nextItem] at h ⊢
  split at h
  case h_1 => cases h
  case h_2 x start behind start_le behind_lt ha =>
    split at h
    case isTrue => cases h
    case isFalse hx =>
      split at h
      case isTrue hf =>
        cases h
        obtain ⟨here, _, _, _, ha', rfl, _⟩ :=
          ahead_of_append ha (Nat.le_of_lt_succ (hl.trans_eq (size_of_ahead ha)))
        simp only [ha', if_neg hx, if_pos hf]
        exact ⟨here, size_le_of_append next_le, rfl, rfl⟩
      case isFalse hf =>
        split at h
        case isFalse => cases h
        case isTrue hc =>
          split at h
          case h_1 => cases h
          case h_2 y there beyond there_le beyond_lt hb =>
            split at h
            case isTrue => cases h
            case isFalse hy =>
              cases h
              have hm : tail.length ≤ behind.size := Nat.le_of_lt (Nat.lt_of_lt_of_le hl there_le)
              obtain ⟨_, middle, _, _, ha', _, rfl⟩ := ahead_of_append ha hm
              obtain ⟨here, _, _, _, hb', rfl, _⟩ :=
                ahead_of_append hb (Nat.le_of_lt_succ (hl.trans_eq (size_of_ahead hb)))
              simp only [ha', if_neg hx, if_neg hf, if_pos hc, hb', if_neg hy]
              exact ⟨here, size_le_of_append next_le, rfl, rfl⟩

theorem nextItem_closed_of_append {c next : Cursor} {isFirst : Bool}
    {next_lt : next.size < (c.append tail).size}
    (h : (c.append tail).nextItem isFirst = .ok (.closed next next_lt)) (hl : tail.length ≤ next.size) :
    ∃ here here_lt, c.nextItem isFirst = .ok (.closed here here_lt) ∧ here.append tail = next := by
  rw [nextItem] at h ⊢
  split at h
  case h_1 => cases h
  case h_2 x start behind start_le behind_lt ha =>
    split at h
    case isTrue hx =>
      cases h
      obtain ⟨_, here, _, _, ha', _, rfl⟩ := ahead_of_append ha hl
      simp only [ha', if_pos hx]
      exact ⟨here, size_lt_of_append next_lt, rfl, rfl⟩
    case isFalse =>
      split at h
      case isTrue => cases h
      case isFalse =>
        split at h
        case isFalse => cases h
        case isTrue =>
          split at h
          case h_1 => cases h
          case h_2 => split at h <;> cases h

theorem cut_nextKey (c : Cursor) (isFirst : Bool) :
    Cut tail ((c.append tail).nextKey isFirst) (c.nextKey isFirst) := by
  intro value next next_lt he hl
  rw [nextKey] at he ⊢
  split at he
  case h_1 => cases he
  case h_2 x start behind start_le behind_lt ha =>
    split at he
    case isTrue hx =>
      cases he
      obtain ⟨_, here, _, _, ha', _, rfl⟩ := ahead_of_append ha hl
      simp only [ha', if_pos hx]
      exact ⟨here, size_lt_of_append next_lt, rfl, rfl⟩
    case isFalse hx =>
      split at he
      case isTrue hf =>
        split at he
        case isFalse => cases he
        case isTrue hq =>
          cases he
          obtain ⟨_, here, _, _, ha', _, rfl⟩ := ahead_of_append ha hl
          simp only [ha', if_neg hx, if_pos hf, if_pos hq]
          exact ⟨here, size_lt_of_append next_lt, rfl, rfl⟩
      case isFalse hf =>
        split at he
        case isFalse => cases he
        case isTrue hc =>
          split at he
          case h_1 => cases he
          case h_2 y there beyond there_le beyond_lt hb =>
            split at he
            case isFalse => split at he <;> cases he
            case isTrue hy =>
              cases he
              have hm := Nat.le_of_lt (size_lt_of_le there_le beyond_lt)
              obtain ⟨_, middle, _, _, ha', _, rfl⟩ := ahead_of_append ha (Nat.le_trans hl hm)
              obtain ⟨_, here, _, _, hb', _, rfl⟩ := ahead_of_append hb hl
              simp only [ha', if_neg hx, if_neg hf, if_pos hc, hb', if_pos hy]
              exact ⟨here, size_lt_of_append next_lt, rfl, rfl⟩

theorem cut_colon (c : Cursor) : Cut tail (c.append tail).colon c.colon := by
  intro value next next_lt he hl
  rw [colon] at he ⊢
  split at he
  case h_1 => cases he
  case h_2 x start behind start_le behind_lt ha =>
    split at he
    case isFalse => cases he
    case isTrue hx =>
      cases he
      obtain ⟨_, here, _, _, ha', _, rfl⟩ := ahead_of_append ha hl
      simp only [ha', if_pos hx]
      exact ⟨here, size_lt_of_append next_lt, rfl, rfl⟩

theorem cut_nextName (c : Cursor) (isFirst : Bool) :
    Cut tail ((c.append tail).nextName isFirst) (c.nextName isFirst) := by
  intro value next next_lt he hl
  rw [nextName] at he ⊢
  split at he
  case h_1 => cases he
  case h_2 behind behind_lt hk =>
    cases he
    obtain ⟨here, here_lt, hk', rfl⟩ := (cut_nextKey c isFirst).under .unknown _ _ _ hk hl
    simp only [hk']
    exact ⟨here, here_lt, rfl, rfl⟩
  case h_3 start start_lt hk =>
    obtain ⟨behind_lt, _⟩ := of_weaken (of_under he)
    obtain ⟨here, here_lt, hk', rfl⟩ :=
      (cut_nextKey c isFirst).under .unknown _ _ _ hk (Nat.le_trans hl (Nat.le_of_lt behind_lt))
    simp only [hk']
    exact (((cut_string here).map some).weaken _ _).under .unknown _ _ _ he hl

theorem nextMember_of_append {c next : Cursor} {isFirst : Bool} {key : String}
    {next_lt : next.size < (c.append tail).size}
    (h : (c.append tail).nextMember isFirst = .ok (.member key next next_lt)) (hl : tail.length ≤ next.size) :
    ∃ here here_lt, c.nextMember isFirst = .ok (.member key here here_lt) ∧ here.append tail = next := by
  rw [nextMember] at h ⊢
  split at h
  case h_1 | h_2 => cases h
  case h_3 name behind behind_lt hn =>
    split at h
    case h_1 => cases h
    case h_2 s hc =>
      cases h
      obtain ⟨middle, _, hn', rfl⟩ := cut_nextName c isFirst _ _ _ hn (Nat.le_trans hl (Nat.le_of_lt s.size_lt))
      obtain ⟨here, _, hc', hh⟩ := cut_colon middle _ _ _ hc hl
      simp only [hn', hc']
      exact ⟨here, size_lt_of_append (hh ▸ next_lt), rfl, hh⟩

theorem nextMember_closed_of_append {c next : Cursor} {isFirst : Bool}
    {next_lt : next.size < (c.append tail).size}
    (h : (c.append tail).nextMember isFirst = .ok (.closed next next_lt)) (hl : tail.length ≤ next.size) :
    ∃ here here_lt, c.nextMember isFirst = .ok (.closed here here_lt) ∧ here.append tail = next := by
  rw [nextMember] at h ⊢
  split at h
  case h_1 => cases h
  case h_2 behind behind_lt hn =>
    cases h
    obtain ⟨here, here_lt, hn', rfl⟩ := cut_nextName c isFirst _ _ _ hn hl
    simp only [hn']
    exact ⟨here, here_lt, rfl, rfl⟩
  case h_3 => split at h <;> cases h

end Cursor

namespace Json

open Cursor Reading

variable {tail : List Char}

-- A value takes at least the character in front of it.
theorem size_lt_of_readPart {depth : Nat} {c here behind next : Cursor} {x : Char} {value : Json}
    {next_lt : next.size < c.size} {here_le : here.size ≤ c.size} {behind_lt : behind.size < here.size}
    (ha : c.ahead = .char x here behind here_le behind_lt)
    (h : readPart depth c = .ok ⟨value, next, next_lt⟩) : next.size < here.size := by
  rw [readPart] at h
  simp only [ha] at h
  split at h
  case isTrue =>
    cases depth with
    | zero => cases h
    | succ =>
      obtain ⟨hn, _⟩ := of_weaken h
      exact Nat.lt_trans hn behind_lt
  case isFalse =>
    split at h
    case isTrue =>
      cases depth with
      | zero => cases h
      | succ =>
        obtain ⟨hn, _⟩ := of_weaken h
        exact Nat.lt_trans hn behind_lt
    case isFalse =>
      obtain ⟨hn, _⟩ := of_weaken h
      exact hn

-- The readers call each other, so the induction is on what is left in front of the tail.
mutual

theorem cut_readPart (depth : Nat) (c : Cursor) :
    Cut tail (readPart depth (c.append tail)) (readPart depth c) := by
  intro value next next_lt he hl
  cases ha : (c.append tail).ahead with
  | ended =>
    rw [readPart, ha] at he
    cases he
  | char x start behind start_le behind_lt =>
    have hs : tail.length < start.size := Nat.lt_of_le_of_lt hl (size_lt_of_readPart ha he)
    obtain ⟨here, middle, here_le, middle_lt, ha', rfl, rfl⟩ :=
      ahead_of_append ha (Nat.le_of_lt_succ (hs.trans_eq (size_of_ahead ha)))
    rw [readPart] at he ⊢
    simp only [ha] at he
    simp only [ha']
    split at he
    case isTrue hx =>
      rw [if_pos hx]
      cases depth with
      | zero => cases he
      | succ depth => exact ((cut_readItems depth 0 middle).map _).weaken _ _ _ _ _ he hl
    case isFalse hx =>
      rw [if_neg hx]
      split at he
      case isTrue hy =>
        rw [if_pos hy]
        cases depth with
        | zero => cases he
        | succ depth => exact ((cut_readMembers depth true middle).map _).weaken _ _ _ _ _ he hl
      case isFalse hy =>
        rw [if_neg hy]
        exact (cut_scalar x _ _).weaken _ _ _ _ _ he hl
termination_by 2 * c.size

theorem cut_readItems (depth index : Nat) (c : Cursor) :
    Cut tail (readItems depth index (c.append tail)) (readItems depth index c) := by
  intro value next next_lt he hl
  rw [readItems] at he ⊢
  split at he
  case h_1 => cases he
  case h_2 behind behind_lt hn =>
    cases he
    obtain ⟨here, here_lt, hn', rfl⟩ := nextItem_closed_of_append hn hl
    simp only [hn']
    exact ⟨here, here_lt, rfl, rfl⟩
  case h_3 behind behind_le hn =>
    split at he
    case h_1 => cases he
    case h_2 s hp =>
      obtain ⟨item, beyond, beyond_lt⟩ := s
      obtain ⟨rest_lt, _⟩ := of_weaken he
      have hb : tail.length ≤ beyond.size := Nat.le_trans hl (Nat.le_of_lt rest_lt)
      obtain ⟨here, here_le, hn', rfl⟩ := nextItem_of_append hn (Nat.lt_of_le_of_lt hb beyond_lt)
      obtain ⟨there, there_lt, hp', rfl⟩ := (cut_readPart depth here).under _ _ _ _ hp hb
      simp only [hn', hp']
      exact ((cut_readItems depth (index + 1) there).map _).weaken _ _ _ _ _ he hl
termination_by 2 * c.size + 1

theorem cut_readMembers (depth : Nat) (isFirst : Bool) (c : Cursor) :
    Cut tail (readMembers depth isFirst (c.append tail)) (readMembers depth isFirst c) := by
  intro value next next_lt he hl
  rw [readMembers] at he ⊢
  split at he
  case h_1 => cases he
  case h_2 behind behind_lt hn =>
    cases he
    obtain ⟨here, here_lt, hn', rfl⟩ := nextMember_closed_of_append hn hl
    simp only [hn']
    exact ⟨here, here_lt, rfl, rfl⟩
  case h_3 key behind behind_lt hn =>
    split at he
    case h_1 => cases he
    case h_2 s hp =>
      obtain ⟨item, beyond, beyond_lt⟩ := s
      obtain ⟨rest_lt, _⟩ := of_weaken he
      have hb : tail.length ≤ beyond.size := Nat.le_trans hl (Nat.le_of_lt rest_lt)
      obtain ⟨here, here_lt, hn', rfl⟩ := nextMember_of_append hn (Nat.le_trans hb (Nat.le_of_lt beyond_lt))
      obtain ⟨there, there_lt, hp', rfl⟩ := (cut_readPart depth here).under _ _ _ _ hp hb
      simp only [hn', hp']
      exact ((cut_readMembers depth false there).map _).weaken _ _ _ _ _ he hl
termination_by 2 * c.size + 1

end

-- A value with a text behind it is read from its own text to the end.
theorem exists_of_readPart {depth : Nat} {text : List Char} {p : Position} {next : Cursor} {value : Json}
    {next_lt : next.size < text.length} (h : readPart depth ⟨text, p⟩ = .ok ⟨value, next, next_lt⟩) :
    ∃ start here, ∃ here_lt : here.size < start.length, text = start ++ next.rest ∧
      readPart depth ⟨start, p⟩ = .ok ⟨value, here, here_lt⟩ ∧ here.rest = [] := by
  obtain ⟨start, rest, rfl, hl⟩ : ∃ start rest, text = start ++ rest ∧ rest.length = next.size := by
    refine ⟨_, _, (List.take_append_drop (text.length - next.size) text).symm, ?_⟩
    rw [List.length_drop]
    omega
  obtain ⟨here, here_lt, hr, rfl⟩ := cut_readPart depth ⟨start, p⟩ _ _ _ h (Nat.le_of_eq hl)
  have hn : here.rest = [] := by
    rw [size_append] at hl
    exact List.eq_nil_of_length_eq_zero (Nat.right_eq_add.mp hl)
  exact ⟨start, here, here_lt, by rw [append, hn, List.nil_append], hr, hn⟩

theorem parse?_eq_some_iff {text : String} {value : Json} :
    parse? text = some value ↔
      ∃ next next_lt, readPart nestingLimit ⟨text.toList, {}⟩ = .ok ⟨value, next, next_lt⟩ ∧
        ∀ x ∈ next.rest, IsSpace x := by
  rw [parse?]
  cases readPart nestingLimit ⟨text.toList, {}⟩ with
  | error => simp
  | ok s =>
    obtain ⟨read, next, next_lt⟩ := s
    have ha : (∃ textEnd, next.ahead = .ended textEnd) ↔ ∀ x ∈ next.rest, IsSpace x := ahead_go_ended_iff
    cases hn : next.ahead with
    | ended textEnd =>
      have hx := ha.mp ⟨textEnd, hn⟩
      simp only [hn, Option.some.injEq]
      constructor
      case mp =>
        rintro rfl
        exact ⟨next, next_lt, rfl, hx⟩
      case mpr =>
        rintro ⟨_, _, he, _⟩
        cases he
        rfl
    | char x here behind =>
      have hx : ¬∀ x ∈ next.rest, IsSpace x := by
        intro hx
        obtain ⟨_, he⟩ := ha.mpr hx
        cases hn.symm.trans he
      simp only [hn]
      refine iff_of_false (by simp) ?_
      rintro ⟨_, _, he, hs⟩
      cases he
      exact hx hs

end Json

theorem loadText_value_eq_ok_iff {text : String} {value : Json} :
    loadText .value text = .ok value ↔
      ∃ next next_lt, Json.readPart nestingLimit ⟨text.toList, {}⟩ = .ok ⟨value, next, next_lt⟩ := by
  simp only [loadText, Format.parseStart, Format.value]
  cases Json.readPart nestingLimit ⟨text.toList, {}⟩ with
  | error => simp
  | ok s =>
    obtain ⟨read, next, next_lt⟩ := s
    constructor
    case mp =>
      intro h
      cases h
      exact ⟨next, next_lt, rfl⟩
    case mpr =>
      rintro ⟨_, _, he⟩
      cases he
      rfl

-- A text is loaded as the value at its start. If nothing but white space follows, it is the value of the whole
-- text, and otherwise the whole text writes no value.
theorem loadText_start (text : String) (value : Json) :
    (Json.parse? text = some value → loadText .value text = .ok value) ∧
    (loadText .value text = .ok value →
      ∃ start rest : List Char, text.toList = start ++ rest ∧
        Json.parse? (String.ofList start) = some value ∧
        Json.parse? text = if ∀ x ∈ rest, Cursor.IsSpace x then some value else none) := by
  constructor
  case left =>
    intro h
    obtain ⟨next, next_lt, hr, _⟩ := Json.parse?_eq_some_iff.mp h
    exact loadText_value_eq_ok_iff.mpr ⟨next, next_lt, hr⟩
  case right =>
    intro h
    obtain ⟨next, next_lt, hr⟩ := loadText_value_eq_ok_iff.mp h
    obtain ⟨start, here, here_lt, ht, hs, hn⟩ := Json.exists_of_readPart hr
    refine ⟨start, next.rest, ht, ?start, ?whole⟩
    case start =>
      refine Json.parse?_eq_some_iff.mpr ?_
      rw [String.toList_ofList]
      exact ⟨here, here_lt, hs, by simp [hn]⟩
    case whole =>
      split
      case isTrue hx  => exact Json.parse?_eq_some_iff.mpr ⟨next, next_lt, hr, hx⟩
      case isFalse hx =>
        refine Option.eq_none_iff_forall_ne_some.mpr fun other ho => hx ?_
        obtain ⟨_, _, hr', ha⟩ := Json.parse?_eq_some_iff.mp ho
        cases hr.symm.trans hr'
        exact ha

theorem loadText_start_twice :
    Json.parse? "[]" = some (.array []) ∧ loadText .value "[]" = .ok (.array []) ∧
      loadText .value "[] []" = .ok (.array []) ∧
      ∃ start rest : List Char, "[] []".toList = start ++ rest ∧
        Json.parse? (String.ofList start) = some (.array []) ∧
        Json.parse? "[] []" = if ∀ x ∈ rest, Cursor.IsSpace x then some (.array []) else none := by
  have hp : Json.parse? "[]" = some (.array []) := by cbv
  have hl : loadText .value "[] []" = .ok (.array []) := by cbv
  exact ⟨hp, (loadText_start _ _).left hp, hl, (loadText_start _ _).right hl⟩

-- A second value behind the first one is lost without an error.
theorem not_parse?_of_loadText :
    ¬∀ text value, loadText .value text = .ok value → Json.parse? text = some value := by
  intro h
  have hl : loadText .value "null null" = .ok .null := by cbv
  have hn : Json.parse? "null null" = none := by cbv
  cases hn.symm.trans (h _ _ hl)

end JsonShape
