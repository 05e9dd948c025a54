import JsonShape.Proofs.Typespace.Reachability

namespace JsonShape

namespace Node

variable {declared : String → Bool} {node : Node} {name : String}

theorem Expressible.declared_of_part (h : node.Expressible declared) (hp : Part (.reference name) node) :
    declared name := by
  induction h with
  | primitive    => cases part_primitive_iff.mp hp
  | literal      => cases part_literal_iff.mp hp
  | reference hn =>
    cases part_reference_iff.mp hp
    exact hn
  | list _ hi    => exact hi ((part_list_iff.mp hp).resolve_left (by simp))
  | union _ _ _ hi =>
    obtain ⟨member, hm, hp⟩ := (part_union_iff.mp hp).resolve_left (by simp)
    exact hi member hm hp

theorem WellFormed.declared_of_part (h : node.WellFormed declared) (hp : Part (.reference name) node) :
    declared name := by
  induction h with
  | expression h => exact h.declared_of_part hp
  | optional h   => exact h.declared_of_part ((part_optional_iff.mp hp).resolve_left (by simp))
  | list _ _ hi  => exact hi ((part_list_iff.mp hp).resolve_left (by simp))
  | tuple _ _ _ hi =>
    obtain ⟨slot, hs, hp⟩ := (part_tuple_iff.mp hp).resolve_left (by simp)
    exact hi slot hs hp
  | struct _ _ _ _ hi =>
    obtain ⟨member, hm, hp⟩ := (part_struct_iff.mp hp).resolve_left (by simp)
    exact hi member hm (hp.required (by simp [isOptional]))

end Node

namespace Typespace

variable {space : Typespace} {node : Node} {name : String}

theorem mem_names_of_part (hw : node.WellFormed space.isDeclared) (hp : Node.Part (.reference name) node) :
    name ∈ space.names := by
  simpa [isDeclared] using hw.declared_of_part hp

theorem Compiled.mem_names_of_reaches (hc : space.Compiled) (hw : node.WellFormed space.isDeclared)
    (hr : Node.Reaches space.declarations (.reference name) node) : name ∈ space.names := by
  rcases hr.exists_part with hp | ⟨d, hd, hp⟩
  case inl => exact mem_names_of_part hw hp
  case inr => exact mem_names_of_part (Definition.wellFormed_of_parse (hc.parsed d hd)) hp

end Typespace

end JsonShape
