import JsonShape.Text.Hidden

namespace JsonShape

-- A number in lower-case hexadecimal digits.
def hexadecimal (n : Nat) : String :=
  String.ofList (Nat.toDigits 16 n)

-- A character as it stands between the quotes.
def escapeQuoted (x : Char) : String :=
  match x with
  | '"' => "\\\""
  | '\\' => "\\\\"
  | '\n' => "\\n"
  | '\r' => "\\r"
  | '\t' => "\\t"
  | '\x00' => "\\0"
  | x => if isHidden x then "\\u\x7b" ++ hexadecimal x.toNat ++ "\x7d" else x.toString

-- The text between double quotes, with its hidden characters escaped.
def quoted (text : String) : String :=
  "\"" ++ String.join (text.toList.map escapeQuoted) ++ "\""

end JsonShape
