import JsonShape.Json.Basic
import JsonShape.Text.Quoted

namespace JsonShape

def integerText (n : Int) : String :=
  String.ofList ((if n < 0 then ['-'] else []) ++ decimalDigits n.natAbs)

namespace Json

def Number.text : Number → String
  | .integer n => integerText n.val
  | .float x => String.ofList x.text

-- A character as it stands in a JSON string.
def escape (x : Char) : String :=
  match x with
  | '"' => "\\\""
  | '\\' => "\\\\"
  | '\x08' => "\\b"
  | '\x0c' => "\\f"
  | '\n' => "\\n"
  | '\r' => "\\r"
  | '\t' => "\\t"
  | x =>
    if x.toNat < 0x10 then "\\u000" ++ hexadecimal x.toNat
    else if x.toNat < 0x20 then "\\u00" ++ hexadecimal x.toNat
    else x.toString

def stringText (s : String) : String :=
  "\"" ++ String.join (s.toList.map escape) ++ "\""

def boolText (b : Bool) : String :=
  if b then "true" else "false"

mutual

def compact : Json → String
  | .null => "null"
  | .bool b => boolText b
  | .number n => n.text
  | .string s => stringText s
  | .array items => "[" ++ ",".intercalate (compactItems items) ++ "]"
  | .object members => "\x7b" ++ ",".intercalate (compactMembers members) ++ "\x7d"

def compactItems : List Json → List String
  | [] => []
  | item :: rest => item.compact :: compactItems rest

def compactMembers : List (String × Json) → List String
  | [] => []
  | (key, value) :: rest => (stringText key ++ ":" ++ value.compact) :: compactMembers rest

end

-- Parts on lines of their own, between brackets at this depth.
def block (depth : Nat) (opening : String) (parts : List String) (closing : String) : String :=
  if parts.isEmpty then opening ++ closing
  else
    let line (depth : Nat) := "\n" ++ String.ofList (List.replicate (2 * depth) ' ')
    opening ++ ",".intercalate (parts.map (line (depth + 1) ++ ·)) ++ line depth ++ closing

mutual

def prettyAt (depth : Nat) : Json → String
  | .null => "null"
  | .bool b => boolText b
  | .number n => n.text
  | .string s => stringText s
  | .array items => block depth "[" (prettyItems (depth + 1) items) "]"
  | .object members => block depth "\x7b" (prettyMembers (depth + 1) members) "\x7d"

def prettyItems (depth : Nat) : List Json → List String
  | [] => []
  | item :: rest => item.prettyAt depth :: prettyItems depth rest

def prettyMembers (depth : Nat) : List (String × Json) → List String
  | [] => []
  | (key, value) :: rest =>
    (stringText key ++ ": " ++ value.prettyAt depth) :: prettyMembers depth rest

end

def pretty (value : Json) : String :=
  value.prettyAt 0

mutual

def brief : Json → String
  | .null => "null"
  | .bool b => boolText b
  | .number n => n.text
  | .string s => "'" ++ s ++ "'"
  | .array items => "[" ++ ", ".intercalate (briefItems items) ++ "]"
  | .object members => "\x7b" ++ ", ".intercalate (briefMembers members) ++ "\x7d"

def briefItems : List Json → List String
  | [] => []
  | item :: rest => item.brief :: briefItems rest

def briefMembers : List (String × Json) → List String
  | [] => []
  | (key, value) :: rest => (key ++ ": " ++ value.brief) :: briefMembers rest

end

end Json

end JsonShape
