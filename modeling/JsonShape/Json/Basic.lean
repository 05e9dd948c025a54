import JsonShape.Members
import JsonShape.Number.Decimal

namespace JsonShape

-- A whole number that 64 bits hold, with a sign or without: at least `-2 ^ 63` and less than `2 ^ 64`.
structure Integer64 where
  val : Int
  lower : -9223372036854775808 ≤ val := by decide
  upper : val < 18446744073709551616 := by decide
deriving DecidableEq

-- The whole number, if 64 bits hold it.
def Integer64.ofInt? (n : Int) : Option Integer64 :=
  if h : -9223372036854775808 ≤ n ∧ n < 18446744073709551616 then some ⟨n, h.1, h.2⟩ else none

namespace Json

inductive Number
  | integer (n : Integer64)
  | float (x : Binary64)
deriving DecidableEq

def Number.value : Number → Double
  | .integer n => .ofInt n.val
  | .float x => x.value

end Json

inductive Json
  | null
  | bool (b : Bool)
  | number (n : Json.Number)
  | string (s : String)
  | array (items : List Json)
  | object (members : List (String × Json))
deriving Inhabited

namespace Json

-- A whole number that is known to fit.
def ofNat (n : Nat) (h : n < 9223372036854775808 := by decide) : Json :=
  .number (.integer ⟨n, by omega, by omega⟩)

-- The keys of every object in a value are distinct. A reader of JSON makes no other values.
inductive KeysDistinct : Json → Prop
  | null : KeysDistinct .null
  | bool : KeysDistinct (.bool b)
  | number : KeysDistinct (.number n)
  | string : KeysDistinct (.string s)
  | array : (∀ item ∈ items, KeysDistinct item) → KeysDistinct (.array items)
  | object : Members.Distinct members → (∀ m ∈ members, KeysDistinct m.snd) →
      KeysDistinct (.object members)

end Json

end JsonShape
