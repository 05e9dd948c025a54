import JsonShape.Json.Scalar

namespace JsonShape

-- How many arrays and objects may stand inside one another.
def nestingLimit : Nat := 127

namespace Cursor

-- The place of the next item of a list, or the cursor behind the list.
inductive NextItem (size : Nat)
  | item (here : Cursor) (here_le : here.size ≤ size)
  | closed (next : Cursor) (next_lt : next.size < size)

-- Looks for an item of a list, behind its opening bracket or behind the item before.
def nextItem (isFirst : Bool) (c : Cursor) : Except ReadError (NextItem c.size) :=
  match c.ahead with
  | .ended p => .error { fault := .endInList, position := p }
  | .char x here next here_le next_lt =>
    if x = ']' then .ok (.closed next (by omega))
    else if isFirst then .ok (.item here here_le)
    else if x = ',' then
      match next.ahead with
      | .ended p => .error { fault := .endInValue, position := p }
      | .char y there _ there_le _ =>
        if y = ']' then .error { fault := .trailingComma, position := there.nextByte }
        else .ok (.item there (by omega))
    else .error { fault := .expectedListCommaOrEnd, position := here.nextByte }

-- A key that was read, with the cursor in front of its value, or the cursor behind the object.
inductive NextMember (size : Nat)
  | member (key : String) (next : Cursor) (next_lt : next.size < size)
  | closed (next : Cursor) (next_lt : next.size < size)

-- The cursor behind the opening quote of a key, or behind the object.
def nextKey (isFirst : Bool) (c : Cursor) : Reading Bool c.size :=
  match c.ahead with
  | .ended p => .fail .endInObject p
  | .char x here next here_le next_lt =>
    if x = '\x7d' then .ok ⟨false, next, by omega⟩
    else if isFirst then
      if x = '"' then .ok ⟨true, next, by omega⟩ else .fail .keyNotString here.nextByte
    else if x = ',' then
      match next.ahead with
      | .ended p => .fail .endInValue p
      | .char y there behind there_le behind_lt =>
        if y = '"' then .ok ⟨true, behind, by omega⟩
        else if y = '\x7d' then .fail .trailingComma there.nextByte
        else .fail .keyNotString there.nextByte
    else .fail .expectedObjectCommaOrEnd here.nextByte

-- The cursor behind the colon that follows a key.
def colon (c : Cursor) : Reading Unit c.size :=
  match c.ahead with
  | .ended p => .fail .endInObject p
  | .char x here next here_le next_lt =>
    if x = ':' then .ok ⟨(), next, by omega⟩ else .fail .expectedColon here.nextByte

def nextName (isFirst : Bool) (c : Cursor) : Reading (Option String) c.size :=
  match (nextKey isFirst c).under .unknown with
  | .error e => .error e
  | .ok ⟨false, next, next_lt⟩ => .ok ⟨none, next, next_lt⟩
  | .ok ⟨true, start, start_lt⟩ =>
    ((start.string.map some).weaken (size_le_of_lt start_lt)).under .unknown

-- Looks for the next member of an object and reads its key and colon.
def nextMember (isFirst : Bool) (c : Cursor) : Except ReadError (NextMember c.size) :=
  match nextName isFirst c with
  | .error e => .error e
  | .ok ⟨none, next, next_lt⟩ => .ok (.closed next next_lt)
  | .ok ⟨some key, next, next_lt⟩ =>
    match next.colon with
    | .error e => .error e
    | .ok s => .ok (.member key s.next (Nat.lt_trans s.size_lt next_lt))

-- Looks for a part that will not be read. Behind a comma it may be missing still.
def nextSkipped (closing : Char) (ended separated : Fault) (isFirst : Bool) (c : Cursor) :
    Except ReadError (NextItem c.size) :=
  match c.ahead with
  | .ended p => .error { fault := ended, position := p }
  | .char x here next here_le next_lt =>
    if x = closing then .ok (.closed next (by omega))
    else if isFirst then .ok (.item here here_le)
    else if x = ',' then .ok (.item next (by omega))
    else .error { fault := separated, position := here.nextByte }

def skipKey (c : Cursor) : Reading Unit c.size :=
  match c.ahead with
  | .ended p => .fail .endInObject p
  | .char x here next here_le next_lt =>
    if x = '"' then
      match next.skipString with
      | .error e => .error e
      | .ok s =>
        have := s.size_lt
        s.next.colon.weaken (by omega)
    else .fail .keyNotString here.nextByte

-- A value that holds no other values. What stands here tells which one it is.
def scalar (x : Char) (here next : Cursor) (h : next.size < here.size) : Reading Json here.size :=
  match x with
  | 'n' => .word .null ['u', 'l', 'l'] next h
  | 't' => .word (.bool true) ['r', 'u', 'e'] next h
  | 'f' => .word (.bool false) ['a', 'l', 's', 'e'] next h
  | '"' => (next.string.map Json.string).weaken (size_le_of_lt h)
  | '-' => ((next.number true).map Json.number).weaken (size_le_of_lt h)
  | x => if x.isDigit then (here.number false).map Json.number else .fail .expectedValue here.nextByte

end Cursor

namespace Json

mutual

-- Reads a value in which this many arrays and objects may stand inside one another.
def readPart (depth : Nat) (c : Cursor) : Reading Json c.size :=
  match c.ahead with
  | .ended p => .fail .endInValue p
  | .char x here next here_le next_lt =>
    if x = '[' then
      match depth with
      | 0 => .fail .tooDeep here.nextByte
      | depth + 1 => ((readItems depth 0 next).map Json.array).weaken (by omega)
    else if x = '\x7b' then
      match depth with
      | 0 => .fail .tooDeep here.nextByte
      | depth + 1 =>
        ((readMembers depth true next).map fun entries => .object (Members.ofList entries)).weaken
          (by omega)
    else (Cursor.scalar x here next next_lt).weaken here_le
termination_by 2 * c.size
decreasing_by all_goals omega

-- Reads the items of an array from this index on, with the closing bracket.
def readItems (depth index : Nat) (c : Cursor) : Reading (List Json) c.size :=
  match c.nextItem (index = 0) with
  | .error e => .error e
  | .ok (.closed next next_lt) => .ok ⟨[], next, next_lt⟩
  | .ok (.item here here_le) =>
    match (readPart depth here).under (.index index) with
    | .error e => .error e
    | .ok s =>
      have := s.size_lt
      ((readItems depth (index + 1) s.next).map (s.value :: ·)).weaken (by omega)
termination_by 2 * c.size + 1
decreasing_by all_goals omega

-- Reads the members of an object, with the closing brace.
def readMembers (depth : Nat) (isFirst : Bool) (c : Cursor) : Reading (List (String × Json)) c.size :=
  match c.nextMember isFirst with
  | .error e => .error e
  | .ok (.closed next next_lt) => .ok ⟨[], next, next_lt⟩
  | .ok (.member key next next_lt) =>
    match (readPart depth next).under (.key key) with
    | .error e => .error e
    | .ok s =>
      have := s.size_lt
      ((readMembers depth false s.next).map ((key, s.value) :: ·)).weaken (by omega)
termination_by 2 * c.size + 1
decreasing_by all_goals omega

end

-- The value that a text starts with. Whatever follows it is not looked at.
def parseStart (text : String) : Except ReadError Json :=
  match readPart nestingLimit ⟨text.toList, {}⟩ with
  | .error e => .error e
  | .ok s => .ok s.value

-- The value that a text writes, if nothing but white space follows it.
def parse? (text : String) : Option Json :=
  match readPart nestingLimit ⟨text.toList, {}⟩ with
  | .error _ => none
  | .ok s =>
    match s.next.ahead with
    | .ended _ => some s.value
    | .char .. => none

mutual

-- Passes over a value. It may be nested to any depth.
def skipPart (c : Cursor) : Reading Unit c.size :=
  match c.ahead with
  | .ended p => .fail .endInValue p
  | .char x here next here_le next_lt =>
    if x = '[' then (skipItems true next).weaken (by omega)
    else if x = '\x7b' then (skipMembers true next).weaken (by omega)
    else if x = '"' then next.skipString.weaken (by omega)
    else if x = '-' then next.skipNumber.weaken (by omega)
    else if x.isDigit then here.skipNumber.weaken here_le
    else ((Cursor.scalar x here next next_lt).map fun _ => ()).weaken here_le
termination_by 2 * c.size
decreasing_by all_goals omega

-- Passes over the items of an array, with the closing bracket.
def skipItems (isFirst : Bool) (c : Cursor) : Reading Unit c.size :=
  match c.nextSkipped ']' .endInList .expectedListCommaOrEnd isFirst with
  | .error e => .error e
  | .ok (.closed next next_lt) => .ok ⟨(), next, next_lt⟩
  | .ok (.item here here_le) =>
    match skipPart here with
    | .error e => .error e
    | .ok s =>
      have := s.size_lt
      (skipItems false s.next).weaken (by omega)
termination_by 2 * c.size + 1
decreasing_by all_goals omega

-- Passes over the members of an object, with the closing brace.
def skipMembers (isFirst : Bool) (c : Cursor) : Reading Unit c.size :=
  match c.nextSkipped '\x7d' .endInObject .expectedObjectCommaOrEnd isFirst with
  | .error e => .error e
  | .ok (.closed next next_lt) => .ok ⟨(), next, next_lt⟩
  | .ok (.item here here_le) =>
    match here.skipKey with
    | .error e => .error e
    | .ok k =>
      have := k.size_lt
      match skipPart k.next with
      | .error e => .error e
      | .ok s =>
        have := s.size_lt
        (skipMembers false s.next).weaken (by omega)
termination_by 2 * c.size + 1
decreasing_by all_goals omega

end

end Json

end JsonShape
