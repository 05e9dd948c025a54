import JsonShape.Typespace.Basic
import JsonShape.Validation.Report

namespace JsonShape

inductive Violation
  | notAssignable (value : Json) (target : String)
  -- The reasons say why each member of a union was refused.
  | notAssignableToAny (value : Json) (target : String) (reasons : List String)
  | tupleLength (found required most : Nat)
  | missing (type : String)
  | unexpected (keys : List String)
  | unknownType (name : String)

def Violation.message : Violation → String
  | notAssignable value target => s!"{value.brief} is not assignable to {target}."
  | notAssignableToAny value target reasons =>
    let lines := "\n".intercalate reasons
    s!"{value.brief} is not assignable to any of {target}:\n{lines}"
  | tupleLength found required most =>
    let expected := if required = most then s!"{most}" else s!"{required} to {most}"
    s!"Tuple of length {found} is not assignable to tuple of length {expected}."
  | missing type => s!"Required value of type {type} was missing."
  | unexpected keys =>
    let names := ", ".intercalate (keys.map fun key => s!"'{key}'")
    if keys.length = 1 then s!"Key {names} was unexpected." else s!"Keys {names} were unexpected."
  | unknownType name => (DefinitionError.unknownType name).message

-- A violation at the root of the value.
def Violation.error (v : Violation) : ValidationError :=
  ⟨[], v.message⟩

namespace Context

mutual

def acceptsAbsence (space : Declarations) (ctx : Context) (node : Node) : Bool :=
  match node with
  | .optional _ => true
  | .primitive keyword => keyword.admitsAbsence
  | .union members => anyAcceptsAbsence space ctx members
  | .reference name =>
    match h : ctx.reference space name with
    | .node resolved inside =>
      have := unseen_lt h
      acceptsAbsence space inside resolved
    | .cycle .. | .unresolved => false
  | .literal _ | .list _ | .tuple _ | .struct _ => false
termination_by (ctx.unseen space, sizeOf node)

def anyAcceptsAbsence (space : Declarations) (ctx : Context) (members : List Node) : Bool :=
  match members with
  | [] => false
  | member :: rest => acceptsAbsence space ctx member || anyAcceptsAbsence space ctx rest
termination_by (ctx.unseen space, sizeOf members)

end

end Context

namespace Validation

-- The keys that no member declares, in the order of the value.
def extraneousKeys (entries : List (String × Json)) (members : List (String × Node)) : List String :=
  (Members.names entries).filter fun key => key ∉ Members.names members

-- The error for the undeclared keys of an object, unless they are to be ignored.
def checkKeys (ignoreExtraneous : Bool) (entries : List (String × Json))
    (members : List (String × Node)) : List ValidationError :=
  let keys := extraneousKeys entries members
  if ignoreExtraneous ∨ keys.isEmpty then [] else [(Violation.unexpected keys).error]

-- The least length of a tuple with these slots.
def requiredSlots (slots : List Node) : Nat :=
  (slots.filter fun slot => ¬slot.isOptional).length

-- The one error for a value of another kind. It names the node by its label, or writes it out.
def mismatch (label : Option String) (value : Json) (node : Node) : List ValidationError :=
  [(Violation.notAssignable value (label.getD node.text)).error]

mutual

-- The mismatches of a value and a node. The label is the name that the node was reached through.
def check (space : Typespace) (ignoreExtraneous : Bool) (ctx : Context) (label : Option String)
    (value : Json) (node : Node) : List ValidationError :=
  match node with
  | .primitive keyword => if keyword.admits value then [] else mismatch label value node
  | .literal literal => if literal.admits value then [] else mismatch label value node
  | .reference name =>
    match h : ctx.reference space.declarations name with
    | .node resolved inside =>
      have := space.aliasHeight_lt_of_resolve? (Context.reference_eq_node_iff.mp h).1
      check space ignoreExtraneous inside (label.getD name) value resolved
    | .cycle resolved _ =>
      -- The value is finite, so a name may be followed again.
      have := space.aliasHeight_lt_of_resolve? (Context.reference_eq_cycle_iff.mp h).1
      check space ignoreExtraneous ctx (label.getD name) value resolved
    | .unresolved => [(Violation.unknownType name).error]
  | .list item =>
    match value with
    | .array items => checkItems space ignoreExtraneous ctx 0 items item
    | _ => mismatch label value node
  | .tuple slots =>
    match value with
    | .array items =>
      if items.length < requiredSlots slots ∨ slots.length < items.length then
        [(Violation.tupleLength items.length (requiredSlots slots) slots.length).error]
      else checkSlots space ignoreExtraneous ctx 0 items slots
    | _ => mismatch label value node
  | .union members =>
    match checkUnion space ignoreExtraneous ctx value members with
    | none => []
    | some reasons => [(Violation.notAssignableToAny value (label.getD node.text) reasons).error]
  | .optional inner => check space ignoreExtraneous ctx label value inner
  | .struct members =>
    match value with
    | .object entries =>
      checkMembers space ignoreExtraneous ctx entries members ++
        checkKeys ignoreExtraneous entries members
    | _ => mismatch label value node
termination_by (sizeOf value, space.aliasHeight node, sizeOf node)
decreasing_by
  · exact .right _ (.left _ _ this)
  · exact .right _ (.left _ _ this)
  · exact .left _ _ (by simp)
  · exact .left _ _ (by simp)
  · exact .right _ (.right _ (by simp))
  · exact space.aliasHeight_optional ▸ .right _ (.right _ (by simp))
  · exact .left _ _ (by simp)

-- The mismatches of the items of an array, from this index on.
def checkItems (space : Typespace) (ignoreExtraneous : Bool) (ctx : Context) (index : Nat)
    (items : List Json) (item : Node) : List ValidationError :=
  match items with
  | [] => []
  | value :: rest =>
    (check space ignoreExtraneous ctx none value item).map (·.under (.index index)) ++
      checkItems space ignoreExtraneous ctx (index + 1) rest item
termination_by (sizeOf items, 0, 0)

-- The mismatches of the items of an array and the slots that they fill, from this index on.
def checkSlots (space : Typespace) (ignoreExtraneous : Bool) (ctx : Context) (index : Nat)
    (items : List Json) (slots : List Node) : List ValidationError :=
  match items, slots with
  | value :: rest, slot :: others =>
    (check space ignoreExtraneous ctx none value slot.required).map (·.under (.index index)) ++
      checkSlots space ignoreExtraneous ctx (index + 1) rest others
  | _, _ => []
termination_by (sizeOf items, 0, 0)

-- Why each member of a union refuses a value, or nothing if one of them accepts it.
def checkUnion (space : Typespace) (ignoreExtraneous : Bool) (ctx : Context) (value : Json)
    (members : List Node) : Option (List String) :=
  match members with
  | [] => some []
  | member :: rest =>
    match check space ignoreExtraneous ctx none value member with
    | [] => none
    | errors =>
      let reasons := "; ".intercalate (errors.map ValidationError.text)
      (checkUnion space ignoreExtraneous ctx value rest).map (s!"{member.text}: {reasons}" :: ·)
termination_by (sizeOf value, space.aliasHeight (.union members), sizeOf members)
decreasing_by all_goals
  refine .right _ (.right' _ ?_ (by simp only [List.cons.sizeOf_spec]; omega))
  rw [Typespace.aliasHeight_union_cons]
  omega

-- The mismatches of an object and the members that it should have.
def checkMembers (space : Typespace) (ignoreExtraneous : Bool) (ctx : Context)
    (entries : List (String × Json)) (members : List (String × Node)) : List ValidationError :=
  match members with
  | [] => []
  | (key, member) :: rest =>
    let found :=
      match h : entries.lookup key with
      | some value =>
        have := Members.sizeOf_lt_of_lookup h
        check space ignoreExtraneous ctx none value member.required
      | none =>
        if ctx.acceptsAbsence space.declarations member then []
        else [(Violation.missing member.text).error]
    found.map (·.under (.key key)) ++ checkMembers space ignoreExtraneous ctx entries rest
termination_by (sizeOf entries, 1, sizeOf members)

end

end Validation

end JsonShape
