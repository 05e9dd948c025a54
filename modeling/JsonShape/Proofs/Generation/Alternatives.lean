import Mathlib
import JsonShape.Model
import JsonShape.Proofs.Generation.Results
import JsonShape.Proofs.Typespace.Compiled

namespace JsonShape

namespace Synthesis

variable {space : Declarations} {substitute : Option Json} {ctx : Context}
variable {last : Node} {members : List Node} {absent : Bool} {failure : Option GenerateError}

-- What each member of a union gives in its place.
def ofAlternatives (space : Declarations) (substitute : Option Json) (ctx : Context) :
    List Node → List Synthesis
  | [] => []
  | member :: rest =>
    ofNode space substitute (ctx.alternative (!rest.isEmpty)) member ::
      ofAlternatives space substitute ctx rest

-- Nothing can be picked in place of the last alternative.
theorem getLast?_ofAlternatives :
    (ofAlternatives space substitute ctx members).getLast? =
      members.getLast?.map (ofNode space substitute ctx) := by
  induction members with
  | nil => rfl
  | cons member rest hi =>
    cases rest with
    | nil => rfl
    | cons next others =>
      have ho : ofAlternatives space substitute ctx (next :: others) ≠ [] := by simp [ofAlternatives]
      rw [ofAlternatives, List.getLast?_cons_of_ne_nil ho, List.getLast?_cons_cons, hi]

section Value

variable {value : Json}

theorem exists_picks_of_mem (h : .ok (some value) ∈ ofAlternatives space substitute ctx members) :
    ∃ first member hasMore, Picks space substitute ctx first members member hasMore := by
  induction members with
  | nil => cases h
  | cons member rest hi =>
    by_cases hv : ∃ first, ofNode space substitute (ctx.alternative (!rest.isEmpty)) member = .ok (some first)
    case pos =>
      obtain ⟨first, hv⟩ := hv
      exact ⟨first, member, _, .here hv⟩
    case neg =>
      have hr : .ok (some value) ∈ ofAlternatives space substitute ctx rest :=
        (List.mem_cons.mp h).resolve_left fun he => hv ⟨value, he.symm⟩
      obtain ⟨first, picked, hasMore, hp⟩ := hi hr
      exact ⟨first, picked, hasMore, .later (not_exists.mp hv) hp⟩

-- No alternative in front of the one that is picked gives a value.
theorem Picks.exists_split {member : Node} {hasMore : Bool}
    (h : Picks space substitute ctx value members member hasMore) :
    ∃ before after, ofAlternatives space substitute ctx members = before ++ .ok (some value) :: after ∧
      ∀ other, .ok (some other) ∉ before := by
  induction h with
  | @here member rest hv =>
    refine ⟨[], ofAlternatives space substitute ctx rest, ?_, fun other hm => List.not_mem_nil hm⟩
    rw [ofAlternatives, hv, List.nil_append]
  | @later first rest _ _ hf _ hi =>
    obtain ⟨before, after, he, hn⟩ := hi
    refine ⟨ofNode space substitute (ctx.alternative (!rest.isEmpty)) first :: before, after, ?split, ?front⟩
    case split => rw [ofAlternatives, he, List.cons_append]
    case front =>
      intro other hm
      cases List.mem_cons.mp hm
      case inl he => exact hf other he.symm
      case inr hm => exact hn other hm

end Value

section Absence

-- Without a value it comes down to the last member, and to whether one before it gave absence.
theorem exists_ofUnion_getLast? (hm : members ≠ [])
    (hv : ∀ value, .ok (some value) ∉ ofAlternatives space substitute ctx members) :
    ∃ last, ∃ (absent' : Bool) (failure' : Option GenerateError), members.getLast? = some last ∧
      (absent' ∨ ofNode space substitute ctx last = .ok none ↔
        absent ∨ .ok none ∈ ofAlternatives space substitute ctx members) ∧
      ofUnion space substitute ctx absent failure members =
        ofUnion space substitute ctx absent' failure' [last] := by
  induction members generalizing absent failure with
  | nil => exact absurd rfl hm
  | cons member rest hi =>
    cases rest with
    | nil =>
      exact ⟨member, absent, failure, rfl, by simp [ofAlternatives, Context.alternative, eq_comm], rfl⟩
    | cons next others =>
      rw [ofAlternatives] at hv ⊢
      have hn := fun value he => hv value (List.mem_cons.mpr (.inl (Eq.symm he)))
      obtain ⟨absent₁, failure₁, ha, hu⟩ := exists_ofUnion_cons (List.cons_ne_nil next others) hn
      obtain ⟨last, absent₂, failure₂, hl, ho, hr⟩ :=
        hi (List.cons_ne_nil next others) fun value he => hv value (.tail _ he)
      refine ⟨last, absent₂, failure₂, hl, ?_, hu.trans hr⟩
      rw [ho, ha, List.mem_cons, or_assoc, @eq_comm Synthesis]

-- The last member alone gives absence where that was met, but for a required cycle.
theorem ofUnion_singleton_of_absent (hv : ∀ value, ofNode space substitute ctx last ≠ .ok (some value))
    (ha : absent ∨ ofNode space substitute ctx last = .ok none)
    (hc : ∀ halt, ofNode space substitute ctx last = .error halt → ¬halt.IsRequiredCycle) :
    ofUnion space substitute ctx absent failure [last] = .ok none := by
  have he {failure : Option GenerateError} : ofUnion space substitute ctx true failure [] = .ok none := by
    rw [ofUnion, ofExhausted, if_pos rfl]
  have hf {halt : Halt} (hn : ofNode space substitute ctx last = .error halt) : absent = true :=
    ha.resolve_right fun ho => by cases hn.symm.trans ho
  rcases @ofUnion_cons space substitute ctx absent failure last [] with
    ⟨value, hn, _⟩ | ⟨_, hu⟩ | ⟨_, _, hn, _, _, hu⟩ | ⟨halt, hn, hr, _⟩
  case inl         => exact absurd hn (hv value)
  case inr.inl     => exact hu.trans he
  case inr.inr.inl => exact hu.trans (hf hn ▸ he)
  case inr.inr.inr =>
    have hr : halt.IsRequiredCycle := hr.resolve_left fun hr => by simp [hf hn] at hr
    exact absurd hr (hc halt hn)

end Absence

-- The first value is the result, and absence without one. Only a required cycle at the end stands in the
-- way of absence, and there is none where a union around is left to pick from, or a substitute given.
theorem ofNode_union_of_mem_ofAlternatives (space : Declarations) (substitute : Option Json) (ctx : Context)
    (members : List Node) :
    (∀ value, .ok (some value) ∈ ofAlternatives space substitute ctx members →
      ∃ first before after,
        ofAlternatives space substitute ctx members = before ++ .ok (some first) :: after ∧
        (∀ other, .ok (some other) ∉ before) ∧
        ofNode space substitute ctx (.union members) = .ok (some first)) ∧
    (.ok none ∈ ofAlternatives space substitute ctx members →
      (∀ value, .ok (some value) ∉ ofAlternatives space substitute ctx members) →
      ((∀ halt, (ofAlternatives space substitute ctx members).getLast? = some (.error halt) →
          ¬halt.IsRequiredCycle) →
        ofNode space substitute ctx (.union members) = .ok none) ∧
      ∀ halt, (ofAlternatives space substitute ctx members).getLast? = some (.error halt) →
        halt.IsRequiredCycle →
        ctx.escapes = 0 ∧ substitute = none ∧
          ofNode space substitute ctx (.union members) = .error halt) := by
  constructor
  case left =>
    intro value hm
    obtain ⟨first, member, hasMore, hp⟩ := exists_picks_of_mem hm
    obtain ⟨before, after, he, hn⟩ := hp.exists_split
    refine ⟨first, before, after, he, hn, ?_⟩
    rw [ofNode, ofUnion_of_picks hp]
  case right =>
    intro ha hv
    have hm : members ≠ [] := by
      rintro rfl
      cases ha
    obtain ⟨last, absent, failure, hl, ho, hu⟩ :=
      @exists_ofUnion_getLast? space substitute ctx members false none hm hv
    have hg : (ofAlternatives space substitute ctx members).getLast? =
        some (ofNode space substitute ctx last) := by rw [getLast?_ofAlternatives, hl, Option.map_some]
    rw [ofNode, hu, hg]
    constructor
    case left =>
      intro hc
      refine ofUnion_singleton_of_absent (fun value hn => ?_) (ho.mpr (.inr ha)) fun halt hn => ?_
      · exact hv value (hn ▸ List.mem_of_getLast? hg)
      · exact hc halt (congrArg some hn)
    case right =>
      intro halt hn hc
      have hn := Option.some.inj hn
      have hs : ¬(0 < ctx.escapes ∨ substitute.isSome) := fun h => not_isRequiredCycle h hn hc
      simp only [not_or, Nat.not_lt, Nat.le_zero, Option.not_isSome_iff_eq_none] at hs
      exact ⟨hs.left, hs.right, ofUnion_cons_of_isRequiredCycle hn hc⟩

-- The first member meets a required cycle where it stands alone, and an avoidable one as a member. The last
-- one meets a cycle that the unions around can avoid.
theorem ofNode_union_of_mem_ofAlternatives_cycle :
    ∃ (space : Typespace) (first second : List Node),
      Typespace.ofJson (.object [("node", .object [("next", .string "node")])]) = .ok space ∧
      first = [.reference "node", .primitive .never, .primitive .undefined, .primitive .string] ∧
      second = [.primitive .undefined, .primitive .never, .reference "node"] ∧
      (.ok (some (.string "")) ∈ ofAlternatives space.declarations none ⟨["node"], 0⟩ first ∧
        ∃ value before after,
          ofAlternatives space.declarations none ⟨["node"], 0⟩ first = before ++ .ok (some value) :: after ∧
          (∀ other, .ok (some other) ∉ before) ∧
          ofNode space.declarations none ⟨["node"], 0⟩ (.union first) = .ok (some value)) ∧
      (.ok none ∈ ofAlternatives space.declarations none ⟨["node"], 1⟩ second ∧
        (∀ value, .ok (some value) ∉ ofAlternatives space.declarations none ⟨["node"], 1⟩ second) ∧
        (∀ halt, (ofAlternatives space.declarations none ⟨["node"], 1⟩ second).getLast? =
          some (.error halt) → ¬halt.IsRequiredCycle) ∧
        ofNode space.declarations none ⟨["node"], 1⟩ (.union second) = .ok none) := by
  have ha : Declarations.aliasCycle?
      [⟨"node", .object [("next", .string "node")], .struct [("next", .reference "node")]⟩] = none := by cbv
  let space : Typespace := ⟨_, AliasStep.wellFounded_of_aliasCycle? ha⟩
  let first : List Node := [.reference "node", .primitive .never, .primitive .undefined, .primitive .string]
  let second : List Node := [.primitive .undefined, .primitive .never, .reference "node"]
  have hv : ofAlternatives space.declarations none ⟨["node"], 0⟩ first =
      [.error (.cycle ⟨"node", ["node"], .avoidable⟩), ungeneratable "never" "'never' has no values.",
        .ok none, .ok (some (.string ""))] := by cbv
  have hn : ofAlternatives space.declarations none ⟨["node"], 1⟩ second =
      [.ok none, ungeneratable "never" "'never' has no values.",
        .error (.cycle ⟨"node", ["node"], .avoidable⟩)] := by cbv
  have hvalue : .ok (some (.string "")) ∈ ofAlternatives space.declarations none ⟨["node"], 0⟩ first := by
    simp [hv]
  have habsent : .ok none ∈ ofAlternatives space.declarations none ⟨["node"], 1⟩ second := by simp [hn]
  have hno : ∀ value, .ok (some value) ∉ ofAlternatives space.declarations none ⟨["node"], 1⟩ second := by
    simp [hn, ungeneratable]
  have hlast : ∀ halt, (ofAlternatives space.declarations none ⟨["node"], 1⟩ second).getLast? =
      some (.error halt) → ¬halt.IsRequiredCycle := by
    rw [hn]
    rintro halt he
    cases he
    exact not_false
  refine ⟨space, first, second, Typespace.ofJson_object_eq_ok_iff.mpr ⟨by decide, by cbv, ha⟩, rfl, rfl,
    ⟨hvalue, ?_⟩, habsent, hno, hlast, ?_⟩
  · exact (ofNode_union_of_mem_ofAlternatives space.declarations none ⟨["node"], 0⟩ first).left _ hvalue
  · exact ((ofNode_union_of_mem_ofAlternatives space.declarations none ⟨["node"], 1⟩ second).right
      habsent hno).left hlast

-- The same two members the other way round give absence.
theorem ofNode_union_loses_absence :
    ∃ space : Typespace,
      Typespace.ofJson (.object [("node", .object [("next", .string "node")])]) = .ok space ∧
      ofAlternatives space.declarations none {} [.primitive .undefined, .reference "node"] =
        [.ok none, .error (.failed (.requiredCycle "node" ["node"]))] ∧
      ofNode space.declarations none {} (.union [.primitive .undefined, .reference "node"]) =
        .error (.failed (.requiredCycle "node" ["node"])) ∧
      ofNode space.declarations none {} (.union [.reference "node", .primitive .undefined]) = .ok none := by
  have ha : Declarations.aliasCycle?
      [⟨"node", .object [("next", .string "node")], .struct [("next", .reference "node")]⟩] = none := by cbv
  exact ⟨⟨_, AliasStep.wellFounded_of_aliasCycle? ha⟩,
    Typespace.ofJson_object_eq_ok_iff.mpr ⟨by decide, by cbv, ha⟩, by cbv, by cbv, by cbv⟩

end Synthesis

end JsonShape
