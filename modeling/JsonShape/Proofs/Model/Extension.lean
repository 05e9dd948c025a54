import Mathlib
import JsonShape.Proofs.Definition.Monotone
import JsonShape.Proofs.Model.Congruence

namespace JsonShape

namespace Declarations

variable {space : Declarations} {name : String}

theorem lookup_map_definition :
    (space.map fun d => (d.name, d.definition)).lookup name =
      (space.find? (·.name = name)).map Declaration.definition := by
  induction space with
  | nil => rfl
  | cons d rest hi =>
    rw [List.map_cons, Members.lookup_cons, List.find?_cons]
    by_cases hn : d.name = name <;> simp [hn, hi]

end Declarations

namespace Typespace

variable {raw raw' : Members Json} {space space' : Typespace}

-- A name stands for what its definition is parsed to.
theorem resolve?_eq_some_iff (h : compile raw = .ok space) {name : String} {node : Node} :
    space.resolve? name = some node ↔
      ∃ definition, raw.lookup name = some definition ∧ space.parse definition = .ok node := by
  have hp := (compiled_of_compile h).parsed
  obtain ⟨-, hd, -⟩ := compile_eq_ok_iff.mp h
  rw [← (declare_eq_ok_iff.mp hd).left, Declarations.lookup_map_definition, resolve?, Declarations.resolve?]
  cases hf : space.declarations.find? (·.name = name) with
  | none => simp
  | some d => simp [hp d (List.mem_of_find?_eq_some hf)]

theorem isDeclared_iff (h : compile raw = .ok space) {name : String} :
    space.isDeclared name ↔ ∃ definition, raw.lookup name = some definition := by
  rw [← Option.ne_none_iff_exists', ne_eq, Members.lookup_eq_none_iff, not_not, isDeclared_iff_mem_names,
    names_of_compile h]

section Extends

variable (h : compile raw = .ok space) (h' : compile raw' = .ok space')
  (he : ∀ name definition, raw.lookup name = some definition → raw'.lookup name = some definition)

include h h' he

theorem parse_of_extends {definition : Json} {node : Node} (hp : space.parse definition = .ok node) :
    space'.parse definition = .ok node := by
  refine Definition.parse_mono (compiled_of_compile h').isTypeName_of_isDeclared (fun name hn => ?_) hp
  obtain ⟨definition, hl⟩ := (isDeclared_iff h).mp hn
  exact (isDeclared_iff h').mpr ⟨definition, he name definition hl⟩

theorem resolve?_of_extends {name : String} {node : Node} (hr : space.resolve? name = some node) :
    space'.resolve? name = some node := by
  obtain ⟨definition, hl, hp⟩ := (resolve?_eq_some_iff h).mp hr
  exact (resolve?_eq_some_iff h').mpr ⟨definition, he name definition hl, parse_of_extends h h' he hp⟩

-- The names that a node can reach are declared already, so new declarations change no answer.
theorem sameResults_of_extends {definition : Json} {node : Node} (hp : space.parse definition = .ok node) :
    space.SameResults space' node := by
  refine sameResults_of_sameAnswers (.of_resolve? fun name hr => ?_)
  have hn := (compiled_of_compile h).mem_names_of_reaches (Definition.wellFormed_of_parse hp) hr
  cases hs : space.resolve? name with
  | none      => exact absurd hn (Declarations.resolve?_eq_none_iff.mp hs)
  | some node => exact (resolve?_of_extends h h' he hs).trans hs.symm

end Extends

theorem extend (h : compile raw = .ok space) (h' : compile raw' = .ok space')
    (he : ∀ name definition, raw.lookup name = some definition → raw'.lookup name = some definition) :
    (∀ name node, space.resolve? name = some node → space'.resolve? name = some node) ∧
    ∀ definition node, space.parse definition = .ok node →
      space'.parse definition = .ok node ∧ space.SameResults space' node := by
  refine ⟨fun name node => resolve?_of_extends h h' he, fun definition node hp => ⟨?_, ?_⟩⟩
  · exact parse_of_extends h h' he hp
  · exact sameResults_of_extends h h' he hp

-- The new name stands in front, and its definition refers to the old one.
theorem extend_tree :
    ∃ space space' node, compile [("tree", .object [("next?", .string "tree")])] = .ok space ∧
      compile [("trees", .string "tree[]"), ("tree", .object [("next?", .string "tree")])] = .ok space' ∧
      (∀ name definition,
        List.lookup name [("tree", Json.object [("next?", .string "tree")])] = some definition →
        List.lookup name [("trees", Json.string "tree[]"), ("tree", .object [("next?", .string "tree")])] =
          some definition) ∧
      space.parse (.string "tree|null") = .ok node ∧ space'.parse (.string "tree|null") = .ok node ∧
      space.resolve? "tree" = some (.struct [("next", .optional (.reference "tree"))]) ∧
      space'.resolve? "tree" = some (.struct [("next", .optional (.reference "tree"))]) ∧
      space.SameResults space' node := by
  have ha : Declarations.aliasCycle?
      [⟨"tree", .object [("next?", .string "tree")], .struct [("next", .optional (.reference "tree"))]⟩] =
      none := by cbv
  have ha' : Declarations.aliasCycle?
      [⟨"trees", .string "tree[]", .list (.reference "tree")⟩,
        ⟨"tree", .object [("next?", .string "tree")], .struct [("next", .optional (.reference "tree"))]⟩] =
      none := by cbv
  let space : Typespace := ⟨_, AliasStep.wellFounded_of_aliasCycle? ha⟩
  let space' : Typespace := ⟨_, AliasStep.wellFounded_of_aliasCycle? ha'⟩
  have h : compile [("tree", .object [("next?", .string "tree")])] = .ok space :=
    compile_eq_ok_iff.mpr ⟨by decide, by cbv, ha⟩
  have h' : compile [("trees", .string "tree[]"), ("tree", .object [("next?", .string "tree")])] = .ok space' :=
    compile_eq_ok_iff.mpr ⟨by decide, by cbv, ha'⟩
  have he : ∀ name definition,
      List.lookup name [("tree", Json.object [("next?", .string "tree")])] = some definition →
      List.lookup name [("trees", Json.string "tree[]"), ("tree", .object [("next?", .string "tree")])] =
        some definition := by
    intro name definition hl
    obtain ⟨rfl, rfl⟩ : name = "tree" ∧ definition = .object [("next?", .string "tree")] := by
      simpa using Members.mem_of_lookup hl
    rfl
  have hp : space.parse (.string "tree|null") = .ok (.union [.reference "tree", .primitive .null]) := by cbv
  obtain ⟨hr, hd⟩ := extend h h' he
  obtain ⟨hp', hs⟩ := hd _ _ hp
  exact ⟨space, space', _, h, h', he, hp, hp', rfl, hr _ _ rfl, hs⟩

end Typespace

end JsonShape
