import JsonShape.Proofs.Definition.Shape
import JsonShape.Proofs.Typespace.Compiled

namespace JsonShape

namespace Node

-- The first node is a part of the second one, or is reached from what a name in it stands for.
inductive Reaches (space : Declarations) (inner : Node) : Node → Prop
  | part : (Part inner node) → Reaches space inner node
  | name : (Part (.reference name) node) → (space.resolve? name = some other) →
      (Reaches space inner other) → Reaches space inner node

-- The nodes right inside of a node.
def children : Node → List Node
  | primitive _ | literal _ | reference _ => []
  | list node | optional node => [node]
  | tuple nodes | union nodes => nodes
  | struct members => members.map Prod.snd

variable {space : Declarations} {inner node other : Node} {name : String}

theorem Part.child (hc : other ∈ node.children) (h : Part inner other) : Part inner node := by
  cases node with
  | primitive | literal | reference => cases hc
  | list      => exact .list (List.mem_singleton.mp hc ▸ h)
  | optional  => exact .optional (List.mem_singleton.mp hc ▸ h)
  | tuple     => exact .tuple hc h
  | union     => exact .union hc h
  | struct    =>
    obtain ⟨member, hm, rfl⟩ := List.mem_map.mp hc
    exact .struct hm h

theorem Part.eq_or_child (h : Part inner node) :
    inner = node ∨ ∃ child ∈ node.children, Part inner child := by
  cases h with
  | self        => exact .inl rfl
  | list h      => exact .inr ⟨_, .head _, h⟩
  | optional h  => exact .inr ⟨_, .head _, h⟩
  | tuple hs h  => exact .inr ⟨_, hs, h⟩
  | union hm h  => exact .inr ⟨_, hm, h⟩
  | struct hm h => exact .inr ⟨_, List.mem_map_of_mem hm, h⟩

theorem Reaches.within (h : Reaches space inner other) (hp : Part other node) :
    Reaches space inner node := by
  cases h with
  | part h        => exact .part (h.trans hp)
  | name hn hr h  => exact .name (hn.trans hp) hr h

theorem Reaches.exists_part (h : Reaches space inner node) :
    Part inner node ∨ ∃ d ∈ space, Part inner d.node := by
  induction h with
  | part h => exact .inl h
  | name _ hr _ hi =>
    obtain ⟨d, hd, _, rfl⟩ := Declarations.exists_mem_of_resolve? hr
    exact .inr (hi.elim (fun h => ⟨d, hd, h⟩) id)

end Node

end JsonShape
