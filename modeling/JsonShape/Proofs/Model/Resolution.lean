import Mathlib
import JsonShape.Proofs.Model.Congruence

namespace JsonShape

namespace Model

-- A model of a definition in the typespace of an object of definitions, or of one of the names there. The
-- options of the definition may put another typespace in its place.
inductive Obtained (m : Model) : Prop
  | define {given : Json} : (Typespace.ofJson raw = .ok space) →
      (space.define options given = .ok m) → Obtained m
  | model : (Typespace.ofJson raw = .ok space) → (space.model name = .ok m) → Obtained m

end Model

namespace Typespace

variable {space typespace : Typespace} {options : ModelOptions} {definition : Json} {m : Model} {name : String}

theorem compiled_of_overridden (hc : space.Compiled) (h : space.overridden options = .ok typespace) :
    typespace.Compiled := by
  rw [overridden] at h
  cases hr : options.typespace with
  | none =>
    rw [hr] at h
    cases h
    exact hc
  | some raw =>
    rw [hr] at h
    exact compiled_of_ofJson h

theorem define_eq_ok_iff :
    space.define options definition = .ok m ↔
      space.overridden options = .ok m.typespace ∧ m.typespace.parse definition = .ok m.node ∧
        m.validateOptions = options.validate ∧ m.generateOptions = options.generate := by
  rw [define]
  split
  case h_1 ho => simp [ho]
  case h_2 typespace ho =>
    obtain ⟨space, node, validateOptions, generateOptions⟩ := m
    split
    case h_1 hp =>
      simp only [ho, reduceCtorEq, Except.ok.injEq, false_iff, not_and]
      rintro rfl hn
      rw [hp] at hn
      cases hn
    case h_2 node' hp =>
      simp only [ho, Except.ok.injEq, Model.mk.injEq]
      constructor
      case mp =>
        rintro ⟨rfl, rfl, rfl, rfl⟩
        exact ⟨rfl, hp, rfl, rfl⟩
      case mpr =>
        rintro ⟨rfl, hn, rfl, rfl⟩
        cases hp.symm.trans hn
        exact ⟨rfl, rfl, rfl, rfl⟩

theorem define_of_model (h : space.model name = .ok m) : space.define {} (.string name) = .ok m := by
  rw [model] at h
  split at h
  case isTrue  => exact h
  case isFalse => cases h

end Typespace

namespace Model

variable {m : Model}

theorem Obtained.parsed (h : m.Obtained) :
    m.typespace.Compiled ∧ ∃ definition, m.typespace.parse definition = .ok m.node := by
  have hd {space : Typespace} {options : ModelOptions} {definition : Json} (hc : space.Compiled)
      (h : space.define options definition = .ok m) :
      m.typespace.Compiled ∧ ∃ definition, m.typespace.parse definition = .ok m.node := by
    obtain ⟨ho, hp, -⟩ := Typespace.define_eq_ok_iff.mp h
    exact ⟨Typespace.compiled_of_overridden hc ho, definition, hp⟩
  cases h with
  | define hs h => exact hd (Typespace.compiled_of_ofJson hs) h
  | model hs h  => exact hd (Typespace.compiled_of_ofJson hs) (Typespace.define_of_model h)

theorem Obtained.wellFormed (h : m.Obtained) : m.node.WellFormed m.typespace.isDeclared := by
  obtain ⟨-, definition, hp⟩ := h.parsed
  exact Definition.wellFormed_of_parse hp

end Model

section References

variable {space : Typespace} {node : Node} {options : ReferencesOptions}

-- In all its forms, a result has names of the list of all mentions.
theorem mem_mentions_of_mem_references {name : String} (h : name ∈ (references space options node).flatten) :
    ∃ c : Collection, c.space = space.declarations ∧ name ∈ c.mentions {} node := by
  let c : Collection :=
    { space := space.declarations
      admits := fun name => options.filter.all (·.admits name)
      transitive := options.transitive }
  refine ⟨c, rfl, ?_⟩
  simp only [references, Collection.found_discover] at h
  split at h
  case isTrue => exact List.mem_eraseDups.mp (by rwa [References.flatten] at h)
  case isFalse =>
    split at h
    case isTrue  => rwa [References.flatten] at h
    case isFalse => rwa [Collection.flatten_shape] at h

theorem mem_names_of_mem_references (hc : space.Compiled) (hw : node.WellFormed space.isDeclared) {name : String}
    (h : name ∈ (references space options node).flatten) : name ∈ space.names := by
  obtain ⟨c, he, hm⟩ := mem_mentions_of_mem_references h
  rw [c.mentions_eq_filter] at hm
  exact hc.mem_names_of_reaches hw (he ▸ Collection.reaches_of_mem_mentions (List.mem_filter.mp hm).left)

end References

-- The walks learn no more than the answers to the names that they can come to, and none of these is the one
-- to an undeclared name.
theorem Model.Obtained.resolves {m : Model} (h : m.Obtained) :
    (∀ last name, Context.ComesTo m.typespace.declarations last (.reference name) {} m.node →
      last.reference m.typespace.declarations name ≠ .unresolved) ∧
    (∀ other : Typespace, Context.SameAnswers m.typespace.declarations other.declarations {} m.node →
      m.typespace.SameResults other m.node) ∧
    (∀ options, ∀ name ∈ (m.referencesWith options).flatten, name ∈ m.typespace.names) ∧
    ∀ name ∈ m.references, name ∈ m.typespace.names := by
  obtain ⟨hc, -⟩ := h.parsed
  have hn {options : ReferencesOptions} {name : String}
      (hm : name ∈ (JsonShape.references m.typespace options m.node).flatten) : name ∈ m.typespace.names :=
    mem_names_of_mem_references hc h.wellFormed hm
  refine ⟨fun last name hr => ?_, fun other => Typespace.sameResults_of_sameAnswers, ?_, ?_⟩
  · exact hc.reference_ne_unresolved h.wellFormed hr
  · exact fun options name => hn
  · exact fun name => hn

theorem Model.Obtained.resolves_tree :
    ∃ space m, Typespace.ofJson (.object [("tree", .object [("children", .string "tree[]")])]) = .ok space ∧
      space.define {} (.string "tree|null") = .ok m ∧ m.Obtained ∧
      (∀ last name, Context.ComesTo m.typespace.declarations last (.reference name) {} m.node →
        last.reference m.typespace.declarations name ≠ .unresolved) ∧
      ∀ name ∈ m.references, name ∈ ["tree"] := by
  have ha : Declarations.aliasCycle?
      [⟨"tree", .object [("children", .string "tree[]")],
        .struct [("children", .list (.reference "tree"))]⟩] = none := by cbv
  let space : Typespace := ⟨_, AliasStep.wellFounded_of_aliasCycle? ha⟩
  let m : Model := ⟨space, .union [.reference "tree", .primitive .null], {}, {}⟩
  have hs : Typespace.ofJson (.object [("tree", .object [("children", .string "tree[]")])]) = .ok space :=
    Typespace.ofJson_object_eq_ok_iff.mpr ⟨by decide, by cbv, ha⟩
  have hd : space.define {} (.string "tree|null") = .ok m :=
    Typespace.define_eq_ok_iff.mpr ⟨rfl, by cbv, rfl, rfl⟩
  obtain ⟨hn, -, -, hr⟩ := Model.Obtained.resolves (.define hs hd)
  exact ⟨space, m, hs, hd, .define hs hd, hn, hr⟩

end JsonShape
