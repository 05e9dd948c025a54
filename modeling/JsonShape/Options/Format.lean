import JsonShape.Json.Reader

namespace JsonShape

structure Format (α : Type) where
  -- Reads a setting in which this many arrays and objects may stand inside one another.
  read : (depth : Nat) → (c : Cursor) → Reading α c.size
  ofJson : Json → Except Mismatch α

namespace Format

variable {α β : Type}

def map (f : α → β) (format : Format α) : Format β where
  read depth c := (format.read depth c).map f
  ofJson value := (format.ofJson value).map f

-- Reads a text from its start. Whatever follows the setting is not looked at.
def parseStart (format : Format α) (text : String) : Except ReadError α :=
  match format.read nestingLimit ⟨text.toList, {}⟩ with
  | .error e => .error e
  | .ok s => .ok s.value

-- Reports the value that stands here, which is not the one that was expected. An array or an object is not
-- read.
def wrongType (expected : String) (x : Char) (here next : Cursor) (h : next.size < here.size) :
    Reading α here.size :=
  let report (found : Found) (p : Position) : Reading α here.size :=
    .fail (.mismatch (.wrongType found expected)) p
  if x = '[' then report .sequence here.position
  else if x = '\x7b' then report .map here.position
  else
    match Cursor.scalar x here next h with
    | .error e => .error e
    | .ok s => report (.ofJson s.value) s.next.position

def value : Format Json where
  read depth c := Json.readPart depth c
  ofJson value := .ok value

def flag : Format Bool where
  read _ c :=
    match c.ahead with
    | .ended p => .fail .endInValue p
    | .char x here next here_le next_lt =>
      Reading.weaken here_le <|
        if x = 't' then .word true ['r', 'u', 'e'] next next_lt
        else if x = 'f' then .word false ['a', 'l', 's', 'e'] next next_lt
        else wrongType "a boolean" x here next next_lt
  ofJson
    | .bool b => .ok b
    | other => .error (.wrongType (.ofJson other) "a boolean")

-- A text. Messages say what it is for.
def text (expected : String) : Format String where
  read _ c :=
    match c.ahead with
    | .ended p => .fail .endInValue p
    | .char x here next here_le next_lt =>
      Reading.weaken here_le <|
        if x = '"' then next.string.weaken (Cursor.size_le_of_lt next_lt)
        else wrongType expected x here next next_lt
  ofJson
    | .string s => .ok s
    | other => .error (.wrongType (.ofJson other) expected)

-- Nothing at all, written as `null`.
def unit : Format Unit where
  read _ c :=
    match c.ahead with
    | .ended p => .fail .endInValue p
    | .char x here next here_le next_lt =>
      Reading.weaken here_le <|
        if x = 'n' then .word () ['u', 'l', 'l'] next next_lt
        else wrongType "unit" x here next next_lt
  ofJson
    | .null => .ok ()
    | other => .error (.wrongType (.ofJson other) "unit")

-- A setting that may be `null`.
def optional (format : Format α) : Format (Option α) where
  read depth c :=
    match c.ahead with
    | .ended p => .fail .endInValue p
    | .char x here next here_le next_lt =>
      Reading.weaken here_le <|
        if x = 'n' then .word none ['u', 'l', 'l'] next next_lt
        else (format.read depth here).map some
  ofJson
    | .null => .ok none
    | other => (format.ofJson other).map some

section Enumeration

variable (variants : List (String × α))

def variant (name : String) : Except Mismatch α :=
  match variants.lookup name with
  | some a => .ok a
  | none => .error (.unknownVariant name (Members.names variants))

-- Reads the name of a variant, behind its opening quote.
def readVariant (c : Cursor) : Reading (String × α) c.size :=
  match c.string with
  | .error e => .error e
  | .ok ⟨name, next, next_lt⟩ =>
    match variant variants name with
    | .ok a => .ok ⟨(name, a), next, next_lt⟩
    | .error m => .fail (.mismatch m) next.position

-- Reads the one key of an object that stands for a variant, behind the opening brace.
def readVariantKey (c : Cursor) : Reading (String × α) c.size :=
  match c.ahead with
  | .ended p => .fail .endInObject p
  | .char x here next here_le next_lt =>
    if x = '"' then (readVariant variants next).weaken (Cursor.size_le_of_le here_le next_lt)
    else if x = '\x7d' then .fail .expectedValue here.nextByte
    else .fail .keyNotString here.nextByte

-- The end of an object whose one member was read.
def closeVariant (a : α) (c : Cursor) : Reading α c.size :=
  match c.ahead with
  | .ended p => .fail .endInObject p
  | .char x here next here_le next_lt =>
    if x = '\x7d' then .ok ⟨a, next, Cursor.size_lt_of_le here_le next_lt⟩
    else .fail .expectedValue here.position

-- Reads a variant that is written as an object, behind the opening brace.
def readVariantMember (depth : Nat) (c : Cursor) : Reading α c.size :=
  match readVariantKey variants c with
  | .error e => .error e
  | .ok name =>
    have := name.size_lt
    match name.next.colon with
    | .error e => .error e
    | .ok colon =>
      have := colon.size_lt
      match (unit.read depth colon.next).under (.key name.value.1) with
      | .error e => .error e
      | .ok content =>
        have := content.size_lt
        (closeVariant name.value.2 content.next).weaken (by omega)

-- One of several variants: its name, or an object that has the name as its one key and nothing under it.
def enumeration : Format α where
  read depth c :=
    match c.ahead with
    | .ended p => .fail .endInValue p
    | .char x here next here_le next_lt =>
      if x = '"' then ((readVariant variants next).map Prod.snd).weaken (Cursor.size_le_of_le here_le next_lt)
      else if x = '\x7b' then
        match depth with
        | 0 => .fail .tooDeep here.nextByte
        | depth + 1 =>
          (readVariantMember variants depth next).weaken (Cursor.size_le_of_le here_le next_lt)
      else .fail .expectedValue here.nextByte
  ofJson
    | .string name => variant variants name
    | .object [(name, content)] =>
      match variant variants name with
      | .error m => .error m
      | .ok a => (unit.ofJson content).map fun _ => a
    | .object _ => .error .notOneKey
    | other => .error (.wrongType (.ofJson other) "string or map")

end Enumeration

end Format

end JsonShape
