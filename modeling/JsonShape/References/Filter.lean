import JsonShape.References.Basic
import JsonShape.References.Pattern
import JsonShape.Text.Quoted

namespace JsonShape

inductive Filter
  | contains (part : String)
  -- A search pattern with the text that it was read from.
  | pattern (source : String) (pattern : Pattern)
  | predicate (test : String → Bool)

namespace Filter

-- Does the first list stand somewhere inside the second one?
def occursIn (part : List Char) : List Char → Bool
  | [] => part.isEmpty
  | x :: rest => part.isPrefixOf (x :: rest) || occursIn part rest

def admits : Filter → String → Bool
  | contains part, name => occursIn part.toList name.toList
  | pattern _ p, name => p.search name
  | predicate test, name => test name

-- The kind of filter, with its text in quotes.
def text : Filter → String
  | contains part => s!"Contains({quoted part})"
  | pattern source _ => s!"Pattern({quoted source})"
  | predicate _ => "Predicate(..)"

end Filter

structure ReferencesOptions where
  -- A list in which each name stands once. It wins over the other list.
  asUnorderedList : Bool := false
  -- A list of all mentions.
  asList : Bool := false
  filter : Option Filter := none
  transitive : Bool := false

def references (space : Typespace) (options : ReferencesOptions) (node : Node) : References :=
  let collection : Collection :=
    { space := space.declarations
      admits := fun name => options.filter.all (·.admits name)
      transitive := options.transitive }
  if options.asUnorderedList then .names (collection.discover {} node []).found
  else if options.asList then .names (collection.mentions {} node)
  else collection.shape node

end JsonShape
