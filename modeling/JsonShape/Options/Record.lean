import JsonShape.Options.Format

namespace JsonShape

-- A field of a record. Reading it gives a change of the record.
structure Field (σ : Type) where
  name : String
  format : Format (σ → σ)

namespace Field

variable {α σ : Type}

def of (name : String) (format : Format α) (set : α → σ → σ) : Field σ :=
  ⟨name, format.map set⟩

-- The position where a field that came twice is noticed: the end of the object is looked for behind its
-- key.
def noticed (c : Cursor) : Position :=
  match c.ahead with
  | .ended p => p
  | .char x here next _ _ => if x = '\x7d' then next.position else here.position

-- Reads the members of a record, with the closing brace. Fields that were read before must not come
-- again.
def readMembers (fields : List (Field σ)) (depth : Nat) (used : List String) (isFirst : Bool)
    (record : σ) (c : Cursor) : Reading σ c.size :=
  match c.nextName isFirst with
  | .error e => .error e
  | .ok ⟨none, next, next_lt⟩ => .ok ⟨record, next, next_lt⟩
  | .ok ⟨some key, next, next_lt⟩ =>
    if key ∈ used then .fail (.mismatch (.duplicateField key)) (noticed next)
    else
      match next.colon with
      | .error e => .error e
      | .ok colon =>
        have := colon.size_lt
        match fields.find? (·.name = key) with
        | some field =>
          match (field.format.read depth colon.next).under (.key key) with
          | .error e => .error e
          | .ok change =>
            have := change.size_lt
            (readMembers fields depth (key :: used) false (change.value record) change.next).weaken
              (Nat.le_of_lt (Nat.lt_trans change.size_lt (Nat.lt_trans colon.size_lt next_lt)))
        | none =>
          match (Json.skipPart colon.next).under (.key key) with
          | .error e => .error e
          | .ok skipped =>
            have := skipped.size_lt
            (readMembers fields depth used false record skipped.next).weaken
              (Nat.le_of_lt (Nat.lt_trans skipped.size_lt (Nat.lt_trans colon.size_lt next_lt)))
termination_by c.size

-- The end of an array that has all fields of a record.
def closeItems (record : σ) (c : Cursor) : Reading σ c.size :=
  match c.ahead with
  | .ended p => .fail .endInList p
  | .char x here next here_le next_lt =>
    if x = ']' then .ok ⟨record, next, Cursor.size_lt_of_le here_le next_lt⟩
    else if x = ',' then
      match next.ahead with
      | .ended p => .fail .trailingCharacters p
      | .char y there _ _ _ =>
        .fail (if y = ']' then .trailingComma else .trailingCharacters) there.nextByte
    else .fail .trailingCharacters here.nextByte

-- Reads the items of a record from this index on, with the closing bracket.
def readItems (depth index : Nat) (record : σ) (c : Cursor) : List (Field σ) → Reading σ c.size
  | [] => closeItems record c
  | field :: rest =>
    match c.nextItem (index = 0) with
    | .error e => .error e
    | .ok (.closed next next_lt) => .ok ⟨record, next, next_lt⟩
    | .ok (.item here here_le) =>
      match (field.format.read depth here).under (.index index) with
      | .error e => .error e
      | .ok change =>
        have := change.size_lt
        (readItems depth (index + 1) (change.value record) change.next rest).weaken (by omega)

-- The record after the members of an object.
def ofMembers (fields : List (Field σ)) (record : σ) : Members Json → Except Mismatch σ
  | [] => .ok record
  | (key, value) :: rest =>
    match fields.find? (·.name = key) with
    | none => ofMembers fields record rest
    | some field =>
      match field.format.ofJson value with
      | .error m => .error m
      | .ok change => ofMembers fields (change record) rest

-- The record after the items of an array, which is this long as a whole.
def ofItems (length : Nat) (record : σ) : List (Field σ) → List Json → Except Mismatch σ
  | _, [] => .ok record
  | [], _ :: _ => .error (.tooManyItems length)
  | field :: fields, value :: rest =>
    match field.format.ofJson value with
    | .error m => .error m
    | .ok change => ofItems length (change record) fields rest

end Field

-- A record with these fields. Messages call it by its name.
def Format.record {σ : Type} (name : String) (default : σ) (fields : List (Field σ)) : Format σ where
  read depth c :=
    match c.ahead with
    | .ended p => .fail .endInValue p
    | .char x here next here_le next_lt =>
      if x = '[' then
        match depth with
        | 0 => .fail .tooDeep here.nextByte
        | depth + 1 =>
          (Field.readItems depth 0 default next fields).weaken (Cursor.size_le_of_le here_le next_lt)
      else if x = '\x7b' then
        match depth with
        | 0 => .fail .tooDeep here.nextByte
        | depth + 1 =>
          (Field.readMembers fields depth [] true default next).weaken
            (Cursor.size_le_of_le here_le next_lt)
      else (Format.wrongType s!"struct {name}" x here next next_lt).weaken here_le
  ofJson
    | .array items => Field.ofItems items.length default fields items
    | .object members => Field.ofMembers fields default members
    | other => .error (.wrongType (.ofJson other) s!"struct {name}")

end JsonShape
