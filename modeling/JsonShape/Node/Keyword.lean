import JsonShape.Json.Basic

namespace JsonShape

inductive Keyword
  | string
  | number
  | boolean
  | bigint
  | symbol
  | undefined
  | null
  | any
  | unknown
  | void
  | never
  | object
  | function
deriving DecidableEq

namespace Keyword

def all : List Keyword :=
  [string, number, boolean, bigint, symbol, undefined, null, any, unknown, void, never, object, function]

def name : Keyword → String
  | string => "string"
  | number => "number"
  | boolean => "boolean"
  | bigint => "bigint"
  | symbol => "symbol"
  | undefined => "undefined"
  | null => "null"
  | any => "any"
  | unknown => "unknown"
  | void => "void"
  | never => "never"
  | object => "object"
  | function => "function"

def ofName? (name : String) : Option Keyword :=
  all.find? (·.name = name)

theorem mem_all (k : Keyword) : k ∈ all := by
  cases k <;> decide

theorem ofName?_name (k : Keyword) : ofName? k.name = some k := by
  cases k <;> decide

theorem name_of_ofName? {s : String} {k : Keyword} (h : ofName? s = some k) : k.name = s := by
  simpa using List.find?_some h

theorem ofName?_eq_some_iff {s : String} {k : Keyword} : ofName? s = some k ↔ k.name = s :=
  ⟨name_of_ofName?, fun h => h ▸ ofName?_name k⟩

-- Does a value that is present belong to this type? An array counts as an object.
def admits : Keyword → Json → Bool
  | string, .string _ => true
  | number, .number _ => true
  | boolean, .bool _ => true
  | bigint, .number (.integer _) => true
  | null, .null => true
  | object, .object _ | object, .array _ => true
  | any, _ | unknown, _ => true
  | _, _ => false

-- May a member of this type be missing?
def admitsAbsence : Keyword → Bool
  | undefined | void | any | unknown => true
  | _ => false

theorem admitsAbsence_iff {k : Keyword} : k.admitsAbsence ↔ k ∈ [undefined, void, any, unknown] := by
  cases k <;> decide

end Keyword

end JsonShape
