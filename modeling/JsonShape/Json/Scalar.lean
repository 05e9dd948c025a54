import JsonShape.Json.Cursor

namespace JsonShape

namespace Reading

variable {α : Type} {n : Nat}

-- The rest of a word such as `null`, which stands for a value.
def word (value : α) : (letters : List Char) → (c : Cursor) → c.size < n → Reading α n
  | [], c, h => .ok ⟨value, c, h⟩
  | _ :: _, ⟨[], p⟩, _ => fail .endInValue p
  | x :: letters, ⟨y :: rest, p⟩, h =>
    if x = y then word value letters ⟨rest, p.after y⟩ (Nat.lt_of_succ_lt h)
    else fail .expectedWord (p.afterBytes 1 (y :: rest))

end Reading

-- The value of a hexadecimal digit in either case.
def hexDigit? (x : Char) : Option Nat :=
  if '0' ≤ x ∧ x ≤ '9' then some (x.toNat - '0'.toNat)
  else if 'a' ≤ x ∧ x ≤ 'f' then some (x.toNat - 'a'.toNat + 10)
  else if 'A' ≤ x ∧ x ≤ 'F' then some (x.toNat - 'A'.toNat + 10)
  else none

def hexNumber? (digits : List Char) : Option Nat :=
  digits.foldlM (fun n x => (hexDigit? x).map (16 * n + ·)) 0

-- The character that stands behind a backslash for this one.
def shortEscape? : Char → Option Char
  | '"' => some '"'
  | '\\' => some '\\'
  | '/' => some '/'
  | 'b' => some '\x08'
  | 'f' => some '\x0c'
  | 'n' => some '\n'
  | 'r' => some '\r'
  | 't' => some '\t'
  | _ => none

namespace Cursor

-- The four hexadecimal digits of an escape. Four bytes are read before they are judged.
def hexEscape (c : Cursor) : Reading Nat c.size :=
  if (String.ofList (c.rest.take 4)).utf8ByteSize < 4 then .fail .endInString c.textEnd
  else
    match h : c.rest with
    | w :: x :: y :: z :: rest =>
      match hexNumber? [w, x, y, z] with
      | some n =>
        .ok ⟨n, ⟨rest, c.position.afterBytes 4 c.rest⟩, by simp only [size, h, List.length_cons]; omega⟩
      | none => .fail .invalidEscape (c.position.afterBytes 4 c.rest)
    | _ => .fail .invalidEscape (c.position.afterBytes 4 c.rest)

-- The second half of a surrogate pair, behind the first half.
def trailingSurrogate (c : Cursor) : Reading Nat c.size :=
  match hc : c.rest with
  | [] => .fail .endInString c.position
  | '\\' :: rest =>
    let c' : Cursor := ⟨rest, c.position.after '\\'⟩
    match rest, hc with
    | [], _ => .fail .endInString c'.position
    | 'u' :: rest, hc =>
      let c'' : Cursor := ⟨rest, c'.position.after 'u'⟩
      match c''.hexEscape with
      | .error e => .error e
      | .ok s =>
        if 0xDC00 ≤ s.value ∧ s.value ≤ 0xDFFF then
          .ok ⟨s.value, s.next, by have := s.size_lt; simp [size, hc, c''] at this ⊢; omega⟩
        else .fail .loneLeadingSurrogate s.next.position
    | _, _ => .fail .endOfHexEscape c'.nextByte
  | _ => .fail .endOfHexEscape c.nextByte

def escape (c : Cursor) : Reading Char c.size :=
  match hc : c.rest with
  | [] => .fail .endInString c.position
  | x :: rest =>
    let next : Cursor := ⟨rest, c.position.after x⟩
    have next_lt : next.size < c.size := by simp [size, hc, next]
    if x = 'u' then
      match next.hexEscape with
      | .error e => .error e
      | .ok s =>
        if 0xDC00 ≤ s.value ∧ s.value ≤ 0xDFFF then .fail .loneLeadingSurrogate s.next.position
        else if 0xD800 ≤ s.value ∧ s.value ≤ 0xDBFF then
          match s.next.trailingSurrogate with
          | .error e => .error e
          | .ok t =>
            .ok ⟨Char.ofNat ((s.value - 0xD800) * 0x400 + (t.value - 0xDC00) + 0x10000), t.next,
              by have := s.size_lt; have := t.size_lt; omega⟩
        else .ok ⟨Char.ofNat s.value, s.next, by have := s.size_lt; omega⟩
    else
      match shortEscape? x with
      | some y => .ok ⟨y, next, next_lt⟩
      | none => .fail .invalidEscape c.nextByte

-- The rest of a string, behind its opening quote.
def string (c : Cursor) : Reading String c.size :=
  (go c []).map fun reversed => String.ofList reversed.reverse
where
  go (c : Cursor) (reversed : List Char) : Reading (List Char) c.size :=
    match hc : c.rest with
    | [] => .fail .endInString c.position
    | x :: rest =>
      let next : Cursor := ⟨rest, c.position.after x⟩
      have next_lt : next.size < c.size := by simp [size, hc, next]
      if x = '"' then .ok ⟨reversed, next, next_lt⟩
      else if x = '\\' then
        match next.escape with
        | .error e => .error e
        | .ok s =>
          have := s.size_lt
          (go s.next (s.value :: reversed)).weaken (by omega)
      else if x.toNat < 0x20 then .fail .controlCharacter next.position
      else (go next (x :: reversed)).weaken (by omega)
  termination_by c.size

-- Passes over the rest of a string. Its escapes need not stand for characters.
def skipString (c : Cursor) : Reading Unit c.size :=
  match hc : c.rest with
  | [] => .fail .endInString c.position
  | x :: rest =>
    let next : Cursor := ⟨rest, c.position.after x⟩
    have next_lt : next.size < c.size := by simp [size, hc, next]
    if x = '"' then .ok ⟨(), next, next_lt⟩
    else if x = '\\' then
      match hn : next.rest with
      | [] => .fail .endInString next.position
      | y :: rest =>
        let behind : Cursor := ⟨rest, next.position.after y⟩
        have behind_lt : behind.size < next.size := by simp [size, hn, behind]
        if y = 'u' then
          match behind.hexEscape with
          | .error e => .error e
          | .ok s =>
            have := s.size_lt
            s.next.skipString.weaken (by omega)
        else if (shortEscape? y).isSome then
          have : behind.size < c.size := by omega
          behind.skipString.weaken (by omega)
        else .fail .invalidEscape next.nextByte
    else if x.toNat < 0x20 then .fail .controlCharacter c.position
    else next.skipString.weaken (by omega)
termination_by c.size

-- The run of decimal digits here, and the cursor behind it.
def digits (c : Cursor) : List Char × Cursor :=
  let run := c.rest.takeWhile Char.isDigit
  (run, ⟨c.rest.dropWhile Char.isDigit, { c.position with column := c.position.column + run.length }⟩)

theorem size_digits_le (c : Cursor) : c.digits.2.size ≤ c.size :=
  (List.dropWhile_sublist _).length_le

theorem size_digits_lt {c : Cursor} (h : c.digits.1 ≠ []) : c.digits.2.size < c.size := by
  have split := congrArg List.length (List.takeWhile_append_dropWhile (p := Char.isDigit) (l := c.rest))
  have pos : 0 < (c.rest.takeWhile Char.isDigit).length := List.length_pos_iff.mpr h
  simp only [List.length_append] at split
  simp only [digits, size]
  omega

-- A whole part: a lone zero, or digits that start with another one.
def wholePart (c : Cursor) : Reading (List Char) c.size :=
  if h : c.digits.1 = [] then
    .fail (if c.rest.isEmpty then .endInValue else .invalidNumber) c.nextByte
  else if c.digits.1.head? = some '0' ∧ 1 < c.digits.1.length then
    .fail .invalidNumber (c.position.afterBytes 2 c.rest)
  else .ok ⟨c.digits.1, c.digits.2, size_digits_lt h⟩

-- A fractional part with its point, if one stands here.
def fractionalPart? (c : Cursor) : Option (Reading (List Char) c.size) :=
  match h : c.rest with
  | '.' :: rest =>
    let next : Cursor := ⟨rest, c.position.after '.'⟩
    if next.digits.1.isEmpty then
      some (.fail (if rest.isEmpty then .endInValue else .invalidNumber) next.nextByte)
    else
      some (.ok ⟨next.digits.1, next.digits.2,
        Nat.lt_of_le_of_lt next.size_digits_le (by simp [size, h, next])⟩)
  | _ => none

-- The sign and the digits of an exponent, and the cursor in front of those digits.
structure Exponent where
  negative : Bool
  digits : List Char
  start : Cursor

def Exponent.value (e : Exponent) : Int :=
  if e.negative then -(ofDecimalDigits e.digits) else ofDecimalDigits e.digits

-- The position behind the digit that takes an exponent beyond 32 bits, if there is one.
def Exponent.overflow? (e : Exponent) : Option Position :=
  let tooLarge (count : Nat) : Bool := 2147483648 ≤ ofDecimalDigits (e.digits.take (count + 1))
  ((List.range e.digits.length).find? tooLarge).map fun count =>
    e.start.position.afterBytes (count + 1) e.start.rest

-- An exponent with its letter, if one stands here.
def exponent? (c : Cursor) : Option (Reading Exponent c.size) :=
  match h : c.rest with
  | x :: rest =>
    if x = 'e' ∨ x = 'E' then
      let next : Cursor := ⟨rest, c.position.after x⟩
      have next_lt : next.size < c.size := by simp [size, h, next]
      let signed : { s : Bool × Cursor // s.2.size ≤ next.size } :=
        match hs : next.rest with
        | '+' :: more => ⟨(false, ⟨more, next.position.after '+'⟩), by simp [size, hs]⟩
        | '-' :: more => ⟨(true, ⟨more, next.position.after '-'⟩), by simp [size, hs]⟩
        | _ => ⟨(false, next), Nat.le_refl _⟩
      let start := signed.val.2
      if start.digits.1.isEmpty then
        some (.fail (if start.rest.isEmpty then .endInValue else .invalidNumber) start.nextByte)
      else
        some (.ok ⟨⟨signed.val.1, start.digits.1, start⟩, start.digits.2,
          Nat.lt_of_le_of_lt (Nat.le_trans start.size_digits_le signed.property) next_lt⟩)
    else none
  | [] => none

-- A number behind its sign. Whole numbers of 64 bits are exact, but for the negative zero.
def number (negative : Bool) (c : Cursor) : Reading Json.Number c.size :=
  match c.wholePart with
  | .error e => .error e
  | .ok whole =>
    match fractionAndExponent whole with
    | .error e => .error e
    | .ok ⟨(fraction, exponent), next, next_le⟩ =>
      let significand := ofDecimalDigits (whole.value ++ fraction.getD [])
      let integer? : Option Integer64 :=
        if fraction.isNone ∧ exponent.isNone ∧ ¬(negative ∧ significand = 0) then
          Integer64.ofInt? (if negative then -significand else significand)
        else none
      match integer? with
      | some n => .ok ⟨.integer n, next, next_le⟩
      | none =>
        let power : Int := (exponent.elim 0 Exponent.value) - (fraction.getD []).length
        match Binary64.ofQuanta? negative (Decimal.quanta ⟨significand, power⟩) with
        | some x => .ok ⟨.float x, next, next_le⟩
        | none => .fail .numberOutOfRange ((exponent.bind Exponent.overflow?).getD next.position)
where
  fractionAndExponent (whole : Scanned (List Char) c.size) :
      Reading (Option (List Char) × Option Exponent) c.size :=
    let behind (fraction : Option (List Char)) (c' : Cursor) (h : c'.size < c.size) :
        Reading (Option (List Char) × Option Exponent) c.size :=
      match c'.exponent? with
      | none => .ok ⟨(fraction, none), c', h⟩
      | some read => (read.map fun e => (fraction, some e)).weaken (Nat.le_of_lt h)
    match whole.next.fractionalPart? with
    | none => behind none whole.next whole.size_lt
    | some (.error e) => .error e
    | some (.ok s) => behind (some s.value) s.next (Nat.lt_trans s.size_lt whole.size_lt)

-- Passes over a number behind its sign. It may be out of range.
def skipNumber (c : Cursor) : Reading Unit c.size :=
  match c.wholePart with
  | .error e => .error { e with fault := .invalidNumber }
  | .ok whole =>
    let behind (c' : Cursor) (h : c'.size < c.size) : Reading Unit c.size :=
      match c'.exponent? with
      | none => .ok ⟨(), c', h⟩
      | some (.error e) => .error { e with fault := .invalidNumber }
      | some (.ok s) => .ok ⟨(), s.next, Nat.lt_trans s.size_lt h⟩
    match whole.next.fractionalPart? with
    | none => behind whole.next whole.size_lt
    | some (.error e) => .error { e with fault := .invalidNumber }
    | some (.ok s) => behind s.next (Nat.lt_trans s.size_lt whole.size_lt)

end Cursor

end JsonShape
