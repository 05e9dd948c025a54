import Mathlib
import JsonShape.Json.Reader

namespace JsonShape

theorem Position.afterBytes_append {text : List Char} {n : Nat} (tail : List Char) (p : Position)
    (h : n ≤ text.length) : p.afterBytes n (text ++ tail) = p.afterBytes n text := by
  induction text generalizing n p with
  | nil =>
    cases Nat.le_zero.mp h
    rw [afterBytes, afterBytes]
  | cons x rest hi =>
    cases n with
    | zero => rw [afterBytes, afterBytes]
    | succ n =>
      have hx := x.utf8Size_pos
      rw [List.length_cons] at h
      rw [List.cons_append, afterBytes, afterBytes, hi _ (by omega)] <;> simp

namespace Cursor

-- The place of the cursor, in a text that goes on.
def append (c : Cursor) (tail : List Char) : Cursor :=
  ⟨c.rest ++ tail, c.position⟩

theorem size_append (c : Cursor) (tail : List Char) : (c.append tail).size = c.size + tail.length :=
  List.length_append

theorem size_append_end_le (p : Position) (tail : List Char) : (append ⟨[], p⟩ tail).size ≤ tail.length :=
  Nat.le_of_eq rfl

theorem size_lt_of_append {c next : Cursor} {tail : List Char}
    (h : (next.append tail).size < (c.append tail).size) : next.size < c.size := by
  rwa [size_append, size_append, Nat.add_lt_add_iff_right] at h

theorem size_le_of_append {c next : Cursor} {tail : List Char}
    (h : (next.append tail).size ≤ (c.append tail).size) : next.size ≤ c.size := by
  rwa [size_append, size_append, Nat.add_le_add_iff_right] at h

-- What starts in front of the tail is a part of the text.
theorem exists_of_append_eq {text more tail : List Char} (start : List Char)
    (h : text ++ tail = start ++ more) (hl : tail.length ≤ more.length) :
    ∃ short, text = start ++ short ∧ short ++ tail = more := by
  rcases List.append_eq_append_iff.mp h with ⟨skipped, rfl, rfl⟩ | ⟨short, rfl, rfl⟩
  case inr => exact ⟨short, rfl, rfl⟩
  case inl =>
    have hn : skipped = [] := List.eq_nil_of_length_eq_zero (by rw [List.length_append] at hl; omega)
    exact ⟨[], by simp [hn], by simp [hn]⟩

-- What may stand between the parts of a document.
abbrev IsSpace (x : Char) : Prop :=
  x = ' ' ∨ x = '\t' ∨ x = '\n' ∨ x = '\r'

-- Behind white space there is this character, with a cursor in front of it and one behind it.
inductive Meets (x : Char) : Cursor → Cursor → Cursor → Prop
  | here  : ¬IsSpace x → Meets x ⟨x :: more, p⟩ ⟨x :: more, p⟩ ⟨more, p.after x⟩
  | space : IsSpace y → Meets x ⟨more, p.after y⟩ here next → Meets x ⟨y :: more, p⟩ here next

section Ahead

variable {c here next : Cursor} {x : Char} {tail : List Char}

theorem meets_of_ahead_go {rest : List Char} {p : Position} {h : rest.length ≤ c.size}
    {here_le : here.size ≤ c.size} {next_lt : next.size < here.size}
    (ha : ahead.go c rest p h = .char x here next here_le next_lt) : Meets x ⟨rest, p⟩ here next := by
  induction rest generalizing p with
  | nil => cases ha
  | cons y rest hi =>
    rw [ahead.go] at ha
    split at ha
    case isTrue hy  => exact .space hy (hi ha)
    case isFalse hy =>
      cases ha
      exact .here hy

theorem ahead_go_of_meets {rest : List Char} {p : Position} (h : rest.length ≤ c.size)
    (hm : Meets x ⟨rest, p⟩ here next) :
    ∃ here_le next_lt, ahead.go c rest p h = .char x here next here_le next_lt := by
  induction rest generalizing p with
  | nil => cases hm
  | cons y rest hi =>
    rw [ahead.go]
    cases hm with
    | here hx     => exact ⟨_, _, if_neg hx⟩
    | space hy hm =>
      rw [if_pos hy]
      exact hi _ hm

theorem ahead_go_ended_iff {rest : List Char} {p : Position} {h : rest.length ≤ c.size} :
    (∃ textEnd, ahead.go c rest p h = .ended textEnd) ↔ ∀ x ∈ rest, IsSpace x := by
  induction rest generalizing p with
  | nil => simp [ahead.go]
  | cons y rest hi =>
    rw [ahead.go, List.forall_mem_cons]
    split
    case isTrue hy  => rw [hi, and_iff_right hy]
    case isFalse hy => simp [hy]

theorem Meets.next_size_lt (h : Meets x c here next) : next.size < c.size := by
  induction h with
  | here        => exact Nat.lt_succ_self _
  | space _ _ h => exact Nat.lt_succ_of_lt h

theorem Meets.size_eq (h : Meets x c here next) : here.size = next.size + 1 := by
  induction h with
  | here         => rfl
  | space _ _ hi => exact hi

theorem Meets.of_append (h : Meets x (c.append tail) here next) (hs : tail.length ≤ next.size) :
    ∃ here' next', Meets x c here' next' ∧ here'.append tail = here ∧ next'.append tail = next := by
  obtain ⟨rest, p⟩ := c
  induction rest generalizing p with
  | nil => exact absurd h.next_size_lt (Nat.not_lt.mpr hs)
  | cons y rest hi =>
    change Meets x ⟨y :: (rest ++ tail), p⟩ here next at h
    cases h with
    | here hx => exact ⟨_, _, .here hx, rfl, rfl⟩
    | space hy h =>
      obtain ⟨here', next', hm, hh, hn⟩ := hi _ h
      exact ⟨here', next', .space hy hm, hh, hn⟩

theorem size_of_ahead {here_le : here.size ≤ c.size} {next_lt : next.size < here.size}
    (h : c.ahead = .char x here next here_le next_lt) : here.size = next.size + 1 :=
  (meets_of_ahead_go h).size_eq

theorem ahead_of_append {here_le : here.size ≤ (c.append tail).size} {next_lt : next.size < here.size}
    (h : (c.append tail).ahead = .char x here next here_le next_lt) (hs : tail.length ≤ next.size) :
    ∃ here' next' here_le next_lt, c.ahead = .char x here' next' here_le next_lt ∧
      here'.append tail = here ∧ next'.append tail = next := by
  obtain ⟨here', next', hm, hh, hn⟩ := (meets_of_ahead_go h).of_append hs
  obtain ⟨here_le, next_lt, ha⟩ := ahead_go_of_meets (Nat.le_refl _) hm
  exact ⟨here', next', here_le, next_lt, ha, hh, hn⟩

end Ahead

end Cursor

namespace Reading

variable {α β : Type} {m n : Nat} {tail : List Char} {long : Reading α m} {short : Reading α n}

-- What is read in front of the tail is read without the tail, too, up to the same place.
def Cut (tail : List Char) (long : Reading α m) (short : Reading α n) : Prop :=
  ∀ value next next_lt, long = .ok ⟨value, next, next_lt⟩ → tail.length ≤ next.size →
    ∃ here here_lt, short = .ok ⟨value, here, here_lt⟩ ∧ here.append tail = next

namespace Cut

theorem of_fail {fault : Fault} {p : Position} : Cut tail (fail fault p : Reading α m) short := by
  intro value next next_lt he
  cases he

theorem of_size (h : m ≤ tail.length) : Cut tail long short :=
  fun _ _ hs _ hl => absurd (Nat.lt_of_lt_of_le hs h) (Nat.not_lt.mpr hl)

theorem map (h : Cut tail long short) (f : α → β) : Cut tail (long.map f) (short.map f) := by
  intro value next next_lt he hl
  cases long with
  | error => cases he
  | ok s =>
    cases he
    obtain ⟨here, here_lt, rfl, hn⟩ := h _ _ _ rfl hl
    exact ⟨here, here_lt, rfl, hn⟩

theorem weaken {m' n' : Nat} (h : Cut tail long short) (hm : m ≤ m') (hn : n ≤ n') :
    Cut tail (long.weaken hm) (short.weaken hn) := by
  intro value next next_lt he hl
  cases long with
  | error => cases he
  | ok s =>
    cases he
    obtain ⟨here, here_lt, rfl, hn⟩ := h _ _ _ rfl hl
    exact ⟨here, _, rfl, hn⟩

theorem under (h : Cut tail long short) (part : Part) : Cut tail (long.under part) (short.under part) := by
  intro value next next_lt he hl
  cases long with
  | error => cases he
  | ok s =>
    cases he
    obtain ⟨here, here_lt, rfl, hn⟩ := h _ _ _ rfl hl
    exact ⟨here, here_lt, rfl, hn⟩

end Cut

theorem of_weaken {h : m ≤ n} {value : α} {next : Cursor} {next_lt : next.size < n}
    (hw : long.weaken h = .ok ⟨value, next, next_lt⟩) : ∃ next_lt, long = .ok ⟨value, next, next_lt⟩ := by
  cases long with
  | error => cases hw
  | ok s =>
    cases hw
    exact ⟨s.size_lt, rfl⟩

theorem of_under {part : Part} {s : Scanned α m} (h : long.under part = .ok s) : long = .ok s := by
  cases long with
  | error => cases h
  | ok    => exact h

-- All letters have to be there, so that none of them is taken from the tail.
theorem size_of_word {value : α} {letters : List Char} {c : Cursor} {h : c.size < n} {s : Scanned α n}
    (hs : word value letters c h = .ok s) : s.next.size + letters.length = c.size := by
  induction letters generalizing c with
  | nil =>
    cases hs
    rfl
  | cons x letters hi =>
    obtain ⟨_ | ⟨y, rest⟩, p⟩ := c
    · cases hs
    · rw [word] at hs
      split at hs
      case isFalse => cases hs
      case isTrue  => exact congrArg Nat.succ (hi hs)

theorem cut_word {value : α} {letters : List Char} {c : Cursor} (hm : (c.append tail).size < m)
    (hn : c.size < n) : Cut tail (word value letters (c.append tail) hm) (word value letters c hn) := by
  induction letters generalizing c with
  | nil =>
    intro value next next_lt he hl
    cases he
    exact ⟨c, hn, rfl, rfl⟩
  | cons x letters hi =>
    obtain ⟨_ | ⟨y, rest⟩, p⟩ := c
    · intro value next next_lt he hl
      have hs := size_of_word he
      have ht := Cursor.size_append_end_le p tail
      rw [List.length_cons] at hs
      dsimp only at hs
      omega
    · intro value next next_lt he hl
      simp only [Cursor.append, List.cons_append, word] at he ⊢
      split at he
      case isFalse => cases he
      case isTrue hx =>
        rw [if_pos hx]
        exact @hi ⟨rest, _⟩ _ _ _ _ _ he hl

end Reading

namespace Cursor

open Reading

variable {tail : List Char}

theorem hexEscape_eq_ok_iff {c next : Cursor} {value : Nat} {next_lt : next.size < c.size} :
    c.hexEscape = .ok ⟨value, next, next_lt⟩ ↔
      ∃ w x y z more, c.rest = w :: x :: y :: z :: more ∧ hexNumber? [w, x, y, z] = some value ∧
        next = ⟨more, c.position.afterBytes 4 c.rest⟩ := by
  obtain ⟨_ | ⟨w, _ | ⟨x, _ | ⟨y, _ | ⟨z, rest⟩⟩⟩⟩, p⟩ := c
  case cons.cons.cons.cons =>
    have hs : ¬(String.ofList (List.take 4 (w :: x :: y :: z :: rest))).utf8ByteSize < 4 := by
      have hw := w.utf8Size_pos
      have hx := x.utf8Size_pos
      have hy := y.utf8Size_pos
      have hz := z.utf8Size_pos
      simp
      omega
    simp only [hexEscape]
    rw [if_neg hs]
    cases hn : hexNumber? [w, x, y, z] with
    | none => simp [hn, fail]
    | some n => simp [hn, eq_comm]
  all_goals
    simp only [hexEscape]
    split <;> simp [fail]

theorem cut_hexEscape (c : Cursor) : Cut tail (c.append tail).hexEscape c.hexEscape := by
  intro value next next_lt he hl
  obtain ⟨w, x, y, z, more, hr, hn, rfl⟩ := hexEscape_eq_ok_iff.mp he
  obtain ⟨short, hs, rfl⟩ := exists_of_append_eq [w, x, y, z] hr hl
  have hp : c.position.afterBytes 4 (c.rest ++ tail) = c.position.afterBytes 4 c.rest :=
    Position.afterBytes_append tail c.position (hs ▸ Nat.le_add_left 4 _)
  have hh : append ⟨short, c.position.afterBytes 4 c.rest⟩ tail =
      ⟨short ++ tail, (c.append tail).position.afterBytes 4 (c.append tail).rest⟩ := by simp only [append, hp]
  have here_lt := size_lt_of_append (hh ▸ next_lt)
  exact ⟨_, here_lt, hexEscape_eq_ok_iff.mpr ⟨w, x, y, z, short, hs, hn, rfl⟩, hh⟩

theorem of_trailingSurrogate {c next : Cursor} {value : Nat} {next_lt : next.size < c.size}
    (h : c.trailingSurrogate = .ok ⟨value, next, next_lt⟩) :
    ∃ more, c.rest = '\\' :: 'u' :: more ∧ (0xDC00 ≤ value ∧ value ≤ 0xDFFF) ∧
      ∃ next_lt, hexEscape ⟨more, (c.position.after '\\').after 'u'⟩ = .ok ⟨value, next, next_lt⟩ := by
  rw [trailingSurrogate] at h
  split at h
  case h_1 | h_3 => cases h
  case h_2 more hm =>
    simp only at h
    split at h
    case h_1 | h_3 => cases h
    case h_2 more hr =>
      split at h
      case h_1 => cases h
      case h_2 s hs =>
        split at h
        case isFalse => cases h
        case isTrue hv =>
          cases h
          exact ⟨more, hr, hv, s.size_lt, hs⟩

theorem trailingSurrogate_of {next : Cursor} {value : Nat} {more : List Char} {p : Position}
    {next_lt : next.size < more.length} (hv : 0xDC00 ≤ value ∧ value ≤ 0xDFFF)
    (hs : hexEscape ⟨more, (p.after '\\').after 'u'⟩ = .ok ⟨value, next, next_lt⟩) :
    ∃ next_lt, trailingSurrogate ⟨'\\' :: 'u' :: more, p⟩ = .ok ⟨value, next, next_lt⟩ := by
  simp only [trailingSurrogate, hs, if_pos hv]
  exact ⟨Nat.lt_succ_of_lt (Nat.lt_succ_of_lt next_lt), trivial⟩

theorem cut_trailingSurrogate (c : Cursor) :
    Cut tail (c.append tail).trailingSurrogate c.trailingSurrogate := by
  intro value next next_lt he hl
  obtain ⟨more, hr, hv, hlt, hs⟩ := of_trailingSurrogate he
  obtain ⟨short, hc, rfl⟩ := exists_of_append_eq ['\\', 'u'] hr (Nat.le_trans hl (Nat.le_of_lt hlt))
  obtain ⟨here, here_lt, hs, hn⟩ := cut_hexEscape ⟨short, _⟩ _ _ _ hs hl
  obtain ⟨rest, p⟩ := c
  cases hc
  obtain ⟨lt, ht⟩ := trailingSurrogate_of hv hs
  exact ⟨here, lt, ht, hn⟩

theorem cut_escape (c : Cursor) : Cut tail (c.append tail).escape c.escape := by
  obtain ⟨_ | ⟨x, rest⟩, p⟩ := c
  case nil => exact .of_size (size_append_end_le p tail)
  case cons =>
    intro value next next_lt he hl
    simp only [escape, append, List.cons_append] at he ⊢
    by_cases hx : x = 'u'
    case neg =>
      simp only [if_neg hx] at he ⊢
      cases hy : shortEscape? x with
      | none =>
        simp only [hy] at he
        cases he
      | some y =>
        simp only [hy] at he ⊢
        cases he
        exact ⟨⟨rest, _⟩, Nat.lt_succ_self _, rfl, rfl⟩
    case pos =>
      simp only [if_pos hx] at he ⊢
      split at he
      case h_1 => cases he
      case h_2 s hs =>
        obtain ⟨n, behind, behind_lt⟩ := s
        have hc := cut_hexEscape ⟨rest, p.after x⟩ _ _ _ hs
        split at he
        case isTrue => cases he
        case isFalse hn =>
          split at he
          case isFalse hm =>
            cases he
            obtain ⟨here, here_lt, hh, rfl⟩ := hc hl
            simp only [hh, if_neg hn, if_neg hm]
            exact ⟨here, Nat.lt_succ_of_lt here_lt, rfl, rfl⟩
          case isTrue hm =>
            split at he
            case h_1 => cases he
            case h_2 t ht =>
              obtain ⟨rfl, rfl⟩ := Scanned.mk.inj (Except.ok.inj he)
              obtain ⟨here, here_lt, hh, rfl⟩ := hc (Nat.le_trans hl (Nat.le_of_lt t.size_lt))
              obtain ⟨there, there_lt, ht, hn'⟩ := cut_trailingSurrogate here _ _ _ ht hl
              simp only [hh, if_neg hn, if_pos hm, ht]
              exact ⟨there, Nat.lt_succ_of_lt (Nat.lt_trans there_lt here_lt), rfl, hn'⟩

-- The induction is on what is left in front of the tail.
theorem cut_string_go (c : Cursor) (reversed : List Char) :
    Cut tail (string.go (c.append tail) reversed) (string.go c reversed) := by
  obtain ⟨_ | ⟨x, rest⟩, p⟩ := c
  case nil => exact .of_size (size_append_end_le p tail)
  case cons =>
    intro value next next_lt he hl
    rw [string.go] at he ⊢
    simp only [append, List.cons_append] at he ⊢
    by_cases hq : x = '"'
    case pos =>
      simp only [if_pos hq] at he ⊢
      cases he
      exact ⟨⟨rest, _⟩, Nat.lt_succ_self _, rfl, rfl⟩
    case neg =>
      simp only [if_neg hq] at he ⊢
      by_cases hb : x = '\\'
      case pos =>
        simp only [if_pos hb] at he ⊢
        split at he
        case h_1 => cases he
        case h_2 s hs =>
          obtain ⟨y, behind, behind_lt⟩ := s
          obtain ⟨next_lt', _⟩ := of_weaken he
          obtain ⟨here, here_lt, hh, rfl⟩ :=
            cut_escape ⟨rest, p.after x⟩ _ _ _ hs (Nat.le_trans hl (Nat.le_of_lt next_lt'))
          simp only [hh]
          exact (cut_string_go here _).weaken _ _ _ _ _ he hl
      case neg =>
        simp only [if_neg hb] at he ⊢
        split at he
        case isTrue => cases he
        case isFalse hc =>
          rw [if_neg hc]
          exact (cut_string_go ⟨rest, _⟩ _).weaken _ _ _ _ _ he hl
termination_by c.size
decreasing_by
  · exact Nat.lt_succ_of_lt here_lt
  · exact Nat.lt_succ_self _

theorem cut_string (c : Cursor) : Cut tail (c.append tail).string c.string :=
  (cut_string_go c []).map _

end Cursor

end JsonShape
