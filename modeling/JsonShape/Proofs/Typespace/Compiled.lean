import JsonShape.Model
import JsonShape.Proofs.Definition.WellFormed

namespace JsonShape

theorem Declarations.exists_mem_of_resolve? {space : Declarations} {name : String} {node : Node}
    (h : space.resolve? name = some node) : ∃ d ∈ space, d.name = name ∧ d.node = node := by
  simp only [resolve?, Option.map_eq_some_iff] at h
  obtain ⟨d, hd, hn⟩ := h
  exact ⟨d, List.mem_of_find?_eq_some hd, by simpa using List.find?_some hd, hn⟩

namespace Typespace

structure Compiled (space : Typespace) : Prop where
  names  : ∀ name ∈ space.names, isTypeName name ∧ ¬isReserved name
  parsed : ∀ d ∈ space.declarations, space.parse d.definition = .ok d.node

theorem checkNames_eq_ok_iff {names : List String} :
    checkNames names = .ok () ↔ ∀ name ∈ names, isTypeName name ∧ ¬isReserved name := by
  induction names with
  | nil => simp [checkNames]
  | cons name rest hi =>
    simp only [checkNames, List.forall_mem_cons, ← hi]
    by_cases hr : isReserved name <;> by_cases ht : isTypeName name <;> simp [hr, ht]

theorem declare_eq_ok_iff {declared : String → Bool} {raw : Members Json}
    {declarations : Declarations} :
    declare declared raw = .ok declarations ↔
      declarations.map (fun d => (d.name, d.definition)) = raw ∧
        ∀ d ∈ declarations, Definition.parse declared d.definition = .ok d.node := by
  induction raw generalizing declarations with
  | nil =>
    simp only [declare, Except.ok.injEq, List.map_eq_nil_iff]
    constructor
    case mp =>
      rintro rfl
      exact ⟨rfl, by simp⟩
    case mpr => exact fun h => h.left.symm
  | cons entry rest hi =>
    obtain ⟨name, definition⟩ := entry
    constructor
    case mp =>
      intro h
      simp only [declare] at h
      split at h
      case h_1 => cases h
      case h_2 hp =>
        split at h
        case h_1 => cases h
        case h_2 hr =>
          cases h
          obtain ⟨hm, hd⟩ := hi.mp hr
          exact ⟨by simp [hm], List.forall_mem_cons.mpr ⟨hp, hd⟩⟩
    case mpr =>
      rintro ⟨hm, hd⟩
      cases declarations with
      | nil => cases hm
      | cons d others =>
        simp only [List.map_cons, List.cons.injEq, Prod.mk.injEq] at hm
        obtain ⟨⟨rfl, rfl⟩, hm⟩ := hm
        obtain ⟨hp, hd⟩ := List.forall_mem_cons.mp hd
        simp [declare, hp, hi.mpr ⟨hm, hd⟩]

theorem exists_declare_iff {declared : String → Bool} {raw : Members Json} :
    (∃ declarations, declare declared raw = .ok declarations) ↔
      ∀ entry ∈ raw, ∃ node, Definition.parse declared entry.snd = .ok node := by
  constructor
  case mp =>
    rintro ⟨declarations, hd⟩ entry he
    obtain ⟨rfl, hp⟩ := declare_eq_ok_iff.mp hd
    obtain ⟨d, hm, rfl⟩ := List.mem_map.mp he
    exact ⟨d.node, hp d hm⟩
  case mpr =>
    intro hp
    induction raw with
    | nil => exact ⟨[], rfl⟩
    | cons entry rest hi =>
      obtain ⟨⟨node, hn⟩, hr⟩ := List.forall_mem_cons.mp hp
      obtain ⟨declarations, hd⟩ := hi hr
      exact ⟨⟨entry.fst, entry.snd, node⟩ :: declarations, by simp [declare, hn, hd]⟩

theorem compile_eq_ok_iff {raw : Members Json} {space : Typespace} :
    compile raw = .ok space ↔
      checkNames raw.names = .ok () ∧ declare raw.names.contains raw = .ok space.declarations ∧
        space.declarations.aliasCycle? = none := by
  constructor
  case mp =>
    intro h
    simp only [compile] at h
    split at h
    case h_1 => cases h
    case h_2 hn =>
      split at h
      case h_1 => cases h
      case h_2 hd =>
        split at h
        case h_1 => cases h
        case h_2 ha =>
          cases h
          exact ⟨hn, hd, ha⟩
  case mpr =>
    rintro ⟨hn, hd, ha⟩
    simp only [compile, hn, hd]
    split
    case h_1 hc => rw [ha] at hc; cases hc
    case h_2 => rfl

theorem compile_of_aliasCycle? {raw : Members Json} {declarations : Declarations} {cycle : Cycle}
    (hn : checkNames raw.names = .ok ())
    (hd : declare raw.names.contains raw = .ok declarations)
    (ha : declarations.aliasCycle? = some cycle) :
    compile raw = .error (.aliasCycle cycle.name cycle.loop) := by
  simp only [compile, hn, hd]
  split
  case h_1 hc => cases ha.symm.trans hc; rfl
  case h_2 hc => cases ha.symm.trans hc

theorem ofJson_object_eq_ok_iff {raw : Members Json} {space : Typespace} :
    ofJson (.object raw) = .ok space ↔
      checkNames raw.names = .ok () ∧ declare raw.names.contains raw = .ok space.declarations ∧
        space.declarations.aliasCycle? = none :=
  compile_eq_ok_iff

theorem names_of_declare {declared : String → Bool} {raw : Members Json} {declarations : Declarations}
    (h : declare declared raw = .ok declarations) : declarations.names = raw.names := by
  rw [← (declare_eq_ok_iff.mp h).left]
  simp [Declarations.names, Members.names]

theorem names_of_compile {raw : Members Json} {space : Typespace} (h : compile raw = .ok space) :
    space.names = raw.names := by
  obtain ⟨-, hd, -⟩ := compile_eq_ok_iff.mp h
  exact names_of_declare hd

theorem isDeclared_iff_mem_names {space : Typespace} {name : String} :
    space.isDeclared name ↔ name ∈ space.names :=
  List.contains_iff_mem

theorem compiled_of_compile {raw : Members Json} {space : Typespace} (h : compile raw = .ok space) :
    space.Compiled := by
  obtain ⟨hn, hd, _⟩ := compile_eq_ok_iff.mp h
  have he := names_of_compile h
  constructor
  case names => exact he ▸ checkNames_eq_ok_iff.mp hn
  case parsed =>
    have hi : space.isDeclared = raw.names.contains := funext fun name => he ▸ rfl
    simpa only [Typespace.parse, hi] using (declare_eq_ok_iff.mp hd).right

theorem compiled_of_ofJson {raw : Json} {space : Typespace} (h : ofJson raw = .ok space) :
    space.Compiled := by
  match raw with
  | .object _ => exact compiled_of_compile h
  | .null =>
    cases h
    constructor <;> simp [names, empty, Declarations.names]
  | .bool _ | .number _ | .string _ | .array _ => cases h

theorem Compiled.isTypeName_of_isDeclared {space : Typespace} (hc : space.Compiled) :
    ∀ name, space.isDeclared name → isTypeName name ∧ ¬isReserved name :=
  fun name h => hc.names name (isDeclared_iff_mem_names.mp h)

theorem Compiled.wellFormed_of_resolve? {space : Typespace} {name : String} {node : Node}
    (hc : space.Compiled) (h : space.resolve? name = some node) :
    node.WellFormed space.isDeclared := by
  obtain ⟨d, hd, _, hn⟩ := Declarations.exists_mem_of_resolve? h
  exact hn ▸ Definition.wellFormed_of_parse (hc.parsed d hd)

theorem Compiled.membersDistinct {space : Typespace} {name : String} {node : Node} (hc : space.Compiled)
    (h : space.resolve? name = some node) : node.MembersDistinct :=
  (hc.wellFormed_of_resolve? h).membersDistinct

end Typespace

end JsonShape
