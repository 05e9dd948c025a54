import JsonShape.Definition.Parser

namespace JsonShape

structure Declaration where
  name : String
  -- The definition as it was given.
  definition : Json
  node : Node

abbrev Declarations := List Declaration

namespace Declarations

def names (space : Declarations) : List String :=
  space.map Declaration.name

def resolve? (space : Declarations) (name : String) : Option Node :=
  (space.find? (·.name = name)).map Declaration.node

theorem resolve?_eq_none_iff {space : Declarations} {name : String} :
    space.resolve? name = none ↔ name ∉ space.names := by
  simp only [resolve?, names, Option.map_eq_none_iff, List.find?_eq_none, List.mem_map]
  exact ⟨fun h ⟨d, hd, e⟩ => h d hd (by simpa using e), fun h d hd e => h ⟨d, hd, by simpa using e⟩⟩

theorem mem_names_of_resolve? {space : Declarations} {name : String} {node : Node}
    (h : space.resolve? name = some node) : name ∈ space.names := by
  refine Decidable.not_not.mp fun hn => ?_
  rw [resolve?_eq_none_iff.mpr hn] at h
  cases h

end Declarations

end JsonShape
