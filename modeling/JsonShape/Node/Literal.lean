import JsonShape.Json.Printer

namespace JsonShape

inductive Literal
  | string (s : String)
  | number (x : Double)
  | bool (b : Bool)
deriving DecidableEq

namespace Double

-- The JSON number for a double: an integer if it is whole and its size is at most `2 ^ 63`. The largest
-- of these becomes the largest integer with a sign. There is none for an infinite number.
def toNumber? : Double → Option Json.Number
  | .finite quanta representable =>
    let whole := quanta / quantaPerOne
    if h : quanta % quantaPerOne = 0 ∧ -9223372036854775808 ≤ whole ∧ whole ≤ 9223372036854775808 then
      some (.integer ⟨min whole 9223372036854775807, by omega, by omega⟩)
    else some (.float ⟨quanta < 0, quanta.natAbs, representable⟩)
  | .infinite => none

end Double

namespace Literal

def toJson : Literal → Json
  | string s => .string s
  | number x => x.toNumber?.elim .null Json.number
  | bool b => .bool b

-- Is the value the one value of this literal? Numbers are compared as doubles.
def admits : Literal → Json → Bool
  | string s, .string t => s = t
  | number x, .number n => n.value = x
  | bool b, .bool c => b = c
  | _, _ => false

-- A string stands between single quotes, or between double ones if it holds a single one.
def text : Literal → String
  | string s => if s.toList.contains '\'' then "\"" ++ s ++ "\"" else "'" ++ s ++ "'"
  | number x => x.toNumber?.elim "null" Json.Number.text
  | bool b => Json.boolText b

end Literal

end JsonShape
