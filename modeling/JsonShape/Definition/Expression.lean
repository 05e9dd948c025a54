import JsonShape.Definition.Error
import JsonShape.Definition.Scan
import JsonShape.Node.Basic
import JsonShape.Text.Blank

namespace JsonShape

-- The text of a fraction: a point with digits behind it, or nothing.
def isFraction : List Char → Bool
  | [] => true
  | x :: digits => x = '.' && !digits.isEmpty && digits.all Char.isDigit

-- The text of a number without its sign: no leading zero, and no exponent.
def isUnsignedNumber (text : List Char) : Bool :=
  let whole := text.takeWhile Char.isDigit
  !whole.isEmpty && (whole = ['0'] || whole.head? != some '0') &&
    isFraction (text.dropWhile Char.isDigit)

-- The text of a number: decimal digits with an optional minus sign and fraction.
def isNumber : List Char → Bool
  | '-' :: text => isUnsignedNumber text
  | text => isUnsignedNumber text

def numberOfText (text : List Char) : Double :=
  let digits := text.filter Char.isDigit
  let fraction := (text.dropWhile (· ≠ '.')).drop 1
  .ofQuanta (text.head? = some '-')
    (Decimal.quanta ⟨ofDecimalDigits digits, -(fraction.length : Int)⟩)

-- The text between two quotes of this kind, if the quote does not stand inside.
def unquote? (quote : Char) (text : List Char) : Option (List Char) :=
  match text with
  | x :: rest =>
    if x = quote ∧ rest.getLast? = some quote ∧ ¬rest.dropLast.contains quote then some rest.dropLast
    else none
  | [] => none

namespace Literal

def ofText? (text : List Char) : Option Literal :=
  if text = "true".toList then some (.bool true)
  else if text = "false".toList then some (.bool false)
  else
    match unquote? '\'' text <|> unquote? '"' text with
    | some body => some (.string (String.ofList body))
    | none => if isNumber text then some (.number (numberOfText text)) else none

end Literal

namespace Expression

-- A member without brackets: a keyword, a literal or a declared name.
def atom? (declared : String → Bool) (text : List Char) : Option Node :=
  let word := String.ofList text
  match Keyword.ofName? word with
  | some keyword => some (.primitive keyword)
  | none =>
    match Literal.ofText? text with
    | some literal => some (.literal literal)
    | none => if declared word then some (.reference word) else none

-- A union that stands as a member of another one gives it its own members.
def splice : Node → List Node
  | .union members => members
  | node => [node]

theorem length_of_dropEnd? {text item ending : List Char} (h : dropEnd? text ending = some item) :
    (trimEnd item).length + ending.length ≤ text.length := by
  have := length_trimEnd_le item
  have := congrArg List.length (eq_append_of_dropEnd? h)
  simp only [List.length_append] at this
  omega

theorem length_of_groupBody? {text body : List Char} (h : groupBody? text = some body) :
    body.length + 2 = text.length := by
  simp [eq_of_groupBody? h]

theorem length_of_splitUnion? {text first : List Char} {others : List (List Char)}
    (h : splitUnion? (trim text) = some (first, others)) :
    (first :: others).flatten.length + others.length ≤ text.length :=
  Scan.length_of_split h ▸ length_trim_le text

mutual

def parseUnion (declared : String → Bool) (text : List Char) : Except DefinitionError Node :=
  have := length_trim_le text
  match h : splitUnion? (trim text) with
  | none => .error (.unknownType (String.ofList (trim text)))
  | some (_, []) => parseMember declared (trim text)
  | some (first, second :: others) =>
    have := length_of_splitUnion? h
    match parseMembers declared (first :: second :: others) with
    | .error e => .error e
    | .ok nodes => .ok (.union (nodes.flatMap splice))
termination_by 3 * text.length + 4
decreasing_by
  · omega
  · simp only [List.length_cons] at *; omega

-- The nodes of the members of a union, up to the first that is not understood.
def parseMembers (declared : String → Bool) (parts : List (List Char)) :
    Except DefinitionError (List Node) :=
  match parts with
  | [] => .ok []
  | part :: rest =>
    have := length_trim_le part
    match parseMember declared (trim part) with
    | .error e => .error e
    | .ok node =>
      match parseMembers declared rest with
      | .error e => .error e
      | .ok nodes => .ok (node :: nodes)
termination_by 3 * (parts.flatten.length + parts.length)
decreasing_by all_goals simp only [List.flatten_cons, List.length_append, List.length_cons] at *; omega

def parseMember (declared : String → Bool) (text : List Char) : Except DefinitionError Node :=
  match hl : dropEnd? text ['[', ']'] with
  | some item =>
    have := length_of_dropEnd? hl
    match parseMember declared (trimEnd item) with
    | .error e => .error e
    | .ok node => .ok (.list node)
  | none =>
    match hg : groupBody? text with
    | some body =>
      have := length_of_groupBody? hg
      parseUnion declared body
    | none =>
      match if text.isEmpty then none else atom? declared text with
      | some node => .ok node
      | none => .error (.unknownType (String.ofList text))
termination_by 3 * text.length
decreasing_by
  · simp only [List.length_cons, List.length_nil] at *; omega
  · omega

end

def parse (declared : String → Bool) (text : String) : Except DefinitionError Node :=
  let text := trim text.toList
  match dropEnd? text ['?'] with
  | some inner => (parseUnion declared inner).map Node.optional
  | none => parseUnion declared text

end Expression

end JsonShape
