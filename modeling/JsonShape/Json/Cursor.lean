import JsonShape.Json.Printer

namespace JsonShape

structure Position where
  line : Nat := 1
  column : Nat := 0
deriving DecidableEq

namespace Position

def after (p : Position) (x : Char) : Position :=
  if x = '\n' then ⟨p.line + 1, 0⟩ else ⟨p.line, p.column + x.utf8Size⟩

-- The position behind a number of bytes of the text that follows, or at its end.
def afterBytes (p : Position) : Nat → List Char → Position
  | 0, _ => p
  | _, [] => p
  | n, x :: rest =>
    if x.utf8Size ≤ n then (p.after x).afterBytes (n - x.utf8Size) rest
    else ⟨p.line, p.column + n⟩

end Position

-- A place in a text: what is still to be read, and where that starts.
structure Cursor where
  rest : List Char
  position : Position := {}

namespace Cursor

def size (c : Cursor) : Nat := c.rest.length

-- The position behind the next byte, or here at the end of the text.
def nextByte (c : Cursor) : Position :=
  c.position.afterBytes 1 c.rest

def textEnd (c : Cursor) : Position :=
  c.rest.foldl Position.after c.position

section Size

variable {c here next : Cursor}

theorem size_le_of_lt (next_lt : next.size < here.size) : next.size ≤ here.size :=
  Nat.le_of_lt next_lt

theorem size_lt_of_le (here_le : here.size ≤ c.size) (next_lt : next.size < here.size) :
    next.size < c.size :=
  Nat.lt_of_lt_of_le next_lt here_le

theorem size_le_of_le (here_le : here.size ≤ c.size) (next_lt : next.size < here.size) :
    next.size ≤ c.size :=
  size_le_of_lt (size_lt_of_le here_le next_lt)

end Size

end Cursor

-- A part of a document. The name of a part is unknown while it is being read.
inductive Part
  | key (name : String)
  | index (i : Nat)
  | unknown
deriving DecidableEq

namespace Part

def text : Part → String
  | key name => name
  | index i => s!"[{i}]"
  | unknown => "?"

-- The text of a part behind the path of what holds it.
def joined : Part → String
  | index i => s!"[{i}]"
  | part => "." ++ part.text

-- The path of a part, as in `a[2].b`. The document itself is a lone point.
def pathText : List Part → String
  | [] => "."
  | first :: rest => first.text ++ String.join (rest.map joined)

end Part

-- What was found where something else was expected.
inductive Found
  | null
  | bool (b : Bool)
  | number (n : Json.Number)
  | string (s : String)
  | sequence
  | map

def Found.text : Found → String
  | .null => "null"
  | .bool b => s!"boolean `{Json.boolText b}`"
  | .number (.integer n) => s!"integer `{integerText n.val}`"
  | .number (.float x) => s!"floating point `{String.ofList x.text}`"
  | .string s => "string " ++ quoted s
  | .sequence => "sequence"
  | .map => "map"

def Found.ofJson : Json → Found
  | .null => .null
  | .bool b => .bool b
  | .number n => .number n
  | .string s => .string s
  | .array _ => .sequence
  | .object _ => .map

-- Why a value is not what was asked for.
inductive Mismatch
  | wrongType (found : Found) (expected : String)
  | unknownVariant (name : String) (variants : List String)
  | duplicateField (name : String)
  | tooManyItems (count : Nat)
  | notOneKey

def Mismatch.message : Mismatch → String
  | .wrongType found expected => s!"invalid type: {found.text}, expected {expected}"
  | .unknownVariant name variants =>
    let expected := " or ".intercalate (variants.map fun v => s!"`{v}`")
    s!"unknown variant `{name}`, expected {expected}"
  | .duplicateField name => s!"duplicate field `{name}`"
  | .tooManyItems count => s!"invalid length {count}, expected fewer elements in array"
  | .notOneKey => "invalid value: map, expected map with a single key"

inductive Fault
  | endInList
  | endInObject
  | endInString
  | endInValue
  | expectedColon
  | expectedListCommaOrEnd
  | expectedObjectCommaOrEnd
  | expectedWord
  | expectedValue
  | invalidEscape
  | invalidNumber
  | numberOutOfRange
  | loneLeadingSurrogate
  | endOfHexEscape
  | controlCharacter
  | keyNotString
  | trailingComma
  | trailingCharacters
  | tooDeep
  | mismatch (m : Mismatch)

def Fault.message : Fault → String
  | .endInList => "EOF while parsing a list"
  | .endInObject => "EOF while parsing an object"
  | .endInString => "EOF while parsing a string"
  | .endInValue => "EOF while parsing a value"
  | .expectedColon => "expected `:`"
  | .expectedListCommaOrEnd => "expected `,` or `]`"
  | .expectedObjectCommaOrEnd => "expected `,` or `\x7d`"
  | .expectedWord => "expected ident"
  | .expectedValue => "expected value"
  | .invalidEscape => "invalid escape"
  | .invalidNumber => "invalid number"
  | .numberOutOfRange => "number out of range"
  | .loneLeadingSurrogate => "lone leading surrogate in hex escape"
  | .endOfHexEscape => "unexpected end of hex escape"
  | .controlCharacter => "control character (\\u0000-\\u001F) found while parsing a string"
  | .keyNotString => "key must be a string"
  | .trailingComma => "trailing comma"
  | .trailingCharacters => "trailing characters"
  | .tooDeep => "recursion limit exceeded"
  | .mismatch m => m.message

structure ReadError where
  fault : Fault
  position : Position
  path : List Part := []

def ReadError.message (e : ReadError) : String :=
  s!"{e.fault.message} at line {e.position.line} column {e.position.column}"

-- A value that was read, and a cursor behind it with less than `size` characters to read.
structure Scanned (α : Type) (size : Nat) where
  value : α
  next : Cursor
  size_lt : next.size < size

-- What reading with this many characters left gives.
abbrev Reading (α : Type) (size : Nat) := Except ReadError (Scanned α size)

namespace Reading

variable {α β : Type} {m n : Nat}

def fail (fault : Fault) (position : Position) : Reading α n :=
  .error { fault, position }

-- Reading started further ahead.
def weaken (h : m ≤ n) : Reading α m → Reading α n
  | .ok s => .ok ⟨s.value, s.next, Nat.lt_of_lt_of_le s.size_lt h⟩
  | .error e => .error e

def map (f : α → β) : Reading α n → Reading β n
  | .ok s => .ok ⟨f s.value, s.next, s.size_lt⟩
  | .error e => .error e

-- Puts errors under a part of the document.
def under (part : Part) : Reading α n → Reading α n
  | .ok s => .ok s
  | .error e => .error { e with path := part :: e.path }

end Reading

-- What stands at a cursor behind white space.
inductive Ahead (size : Nat)
  | ended (position : Position)
  | char (x : Char) (here : Cursor) (next : Cursor) (here_le : here.size ≤ size)
      (next_lt : next.size < here.size)

namespace Cursor

def ahead (c : Cursor) : Ahead c.size :=
  go c.rest c.position (Nat.le_refl _)
where
  go (rest : List Char) (p : Position) (h : rest.length ≤ c.size) : Ahead c.size :=
    match rest with
    | [] => .ended p
    | x :: more =>
      if x = ' ' ∨ x = '\t' ∨ x = '\n' ∨ x = '\r' then
        go more (p.after x) (Nat.le_of_succ_le h)
      else .char x ⟨x :: more, p⟩ ⟨more, p.after x⟩ h (by simp [size])

end Cursor

end JsonShape
