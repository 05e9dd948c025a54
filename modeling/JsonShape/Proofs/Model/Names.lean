import Mathlib
import JsonShape.Proofs.Model.Resolution

namespace JsonShape

open Expression

namespace Typespace

variable {raw : Members Json} {space : Typespace} {name : String}

theorem Compiled.parse_name (hc : space.Compiled) (h : space.isDeclared name) :
    space.parse (.string name) = .ok (.reference name) := by
  rw [Typespace.parse, Definition.parse]
  exact parse_of_derives hc.isTypeName_of_isDeclared (.plain (.single (.name h)))

theorem Compiled.model_name (hc : space.Compiled) (h : space.isDeclared name) :
    space.model name = .ok ⟨space, .reference name, {}, {}⟩ := by
  rw [model, if_pos h]
  exact define_eq_ok_iff.mpr ⟨rfl, hc.parse_name h, rfl, rfl⟩

theorem model_of_not_declared (h : ¬space.isDeclared name) : space.model name = .error (.unknownType name) := by
  rw [model, if_neg h]

-- The declared names are just the definitions that have a model by name, and each one is read as itself.
theorem model_of_compile (h : compile raw = .ok space) (name : String) :
    (name ∈ raw.names →
      space.parse (.string name) = .ok (.reference name) ∧
      ∃ m, space.model name = .ok m ∧ m.typespace = space ∧ m.node = .reference name) ∧
    (name ∉ raw.names → space.model name = .error (.unknownType name)) := by
  have hc := compiled_of_compile h
  rw [← names_of_compile h, ← isDeclared_iff_mem_names]
  exact ⟨fun hd => ⟨hc.parse_name hd, _, hc.model_name hd, rfl, rfl⟩, model_of_not_declared⟩

-- A name that starts like a keyword stands for itself, and the keyword has no model by name.
theorem model_of_compile_keyword :
    ∃ space m, compile [("null_", .object [("true1", .string "null|null_")])] = .ok space ∧
      "null_" ∈ Members.names [("null_", Json.object [("true1", .string "null|null_")])] ∧
      "null" ∉ Members.names [("null_", Json.object [("true1", .string "null|null_")])] ∧
      space.parse (.string "null_") = .ok (.reference "null_") ∧
      space.model "null_" = .ok m ∧ m.node = .reference "null_" ∧
      space.model "null" = .error (.unknownType "null") := by
  have ha : Declarations.aliasCycle?
      [⟨"null_", .object [("true1", .string "null|null_")],
        .struct [("true1", .union [.primitive .null, .reference "null_"])]⟩] = none := by cbv
  let space : Typespace := ⟨_, AliasStep.wellFounded_of_aliasCycle? ha⟩
  have h : compile [("null_", .object [("true1", .string "null|null_")])] = .ok space :=
    compile_eq_ok_iff.mpr ⟨by decide, by cbv, ha⟩
  obtain ⟨hp, m, hm, -, hn⟩ := (model_of_compile h "null_").left (.head _)
  exact ⟨space, m, h, .head _, by decide, hp, hm, hn, (model_of_compile h "null").right (by decide)⟩

end Typespace

end JsonShape
