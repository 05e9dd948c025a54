import JsonShape.Node.Keyword
import JsonShape.Node.Literal

namespace JsonShape

inductive Node
  | primitive (keyword : Keyword)
  | literal (literal : Literal)
  | reference (name : String)
  | list (item : Node)
  | tuple (slots : List Node)
  -- The first member that has a value is the one that is generated.
  | union (members : List Node)
  -- A struct member that may be missing, or a tuple slot that may be cut off.
  | optional (inner : Node)
  | struct (members : List (String × Node))

namespace Node

def isOptional : Node → Bool
  | optional _ => true
  | _ => false

-- The node of what is there when something is there.
def required : Node → Node
  | optional inner => inner
  | node => node

-- Is the node a union or an optional, so that it needs parentheses inside another expression?
def isLoose : Node → Bool
  | union _ | optional _ => true
  | _ => false

def enclosed (node : Node) (text : String) : String :=
  if node.isLoose then "(" ++ text ++ ")" else text

mutual

-- The text of a node. It is a string expression if the node has one.
def text : Node → String
  | primitive keyword => keyword.name
  | literal l => l.text
  | reference name => name
  | list item => item.enclosed item.text ++ "[]"
  | tuple slots => "[" ++ ", ".intercalate (slotTexts slots) ++ "]"
  | union members => "|".intercalate (memberTexts members)
  | optional inner => inner.text ++ "?"
  | struct [] => "\x7b\x7d"
  | struct members => "\x7b" ++ ",".intercalate (fieldTexts members) ++ " \x7d"

def slotTexts : List Node → List String
  | [] => []
  | slot :: rest => slot.text :: slotTexts rest

def memberTexts : List Node → List String
  | [] => []
  | member :: rest => member.enclosed member.text :: memberTexts rest

def fieldTexts : List (String × Node) → List String
  | [] => []
  | (key, optional inner) :: rest => (" " ++ key ++ "?: " ++ inner.text) :: fieldTexts rest
  | (key, member) :: rest => (" " ++ key ++ ": " ++ member.text) :: fieldTexts rest

end

mutual

-- Can the node be written as a string expression?
def isExpression : Node → Bool
  | struct _ | tuple _ => false
  | list item => item.isExpression
  | optional inner => inner.isExpression
  | union members => allExpressions members
  | primitive _ | literal _ | reference _ => true

def allExpressions : List Node → Bool
  | [] => true
  | member :: rest => member.isExpression && allExpressions rest

end

mutual

-- The definition of a node: an expression where there is one, and objects and arrays elsewhere.
def definition : Node → Json
  | struct members => .object (Members.ofList (fieldDefinitions members))
  | tuple slots => .array (slotDefinitions slots)
  | list item => if item.isExpression then .string (list item).text else .array [item.definition]
  | optional inner => if inner.isExpression then .string (optional inner).text else inner.definition
  | node => .string node.text

def slotDefinitions : List Node → List Json
  | [] => []
  | slot :: rest => slot.definition :: slotDefinitions rest

def fieldDefinitions : List (String × Node) → List (String × Json)
  | [] => []
  | (key, optional inner) :: rest => (key ++ "?", inner.definition) :: fieldDefinitions rest
  | (key, member) :: rest => (key, member.definition) :: fieldDefinitions rest

end

end Node

end JsonShape
