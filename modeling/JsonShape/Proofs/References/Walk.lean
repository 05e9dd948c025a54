import JsonShape.Proofs.Typespace.Induction
import JsonShape.Proofs.Typespace.Reachability
import JsonShape.References.Filter

namespace JsonShape

-- A traversal does the same with all nodes that are not names: it goes on to the children.
theorem Context.children_induction (space : Declarations) {motive : Context → Node → Prop}
    (reference : ∀ ctx name,
      (∀ node inside, ctx.reference space name = .node node inside → motive inside node) →
      motive ctx (.reference name))
    (other : ∀ ctx node, (∀ name, node ≠ .reference name) →
      (∀ child ∈ node.children, motive ctx child) → motive ctx node)
    (ctx : Context) (node : Node) : motive ctx node := by
  induction ctx, node using Context.induction space with
  | reference ctx name hi => exact reference ctx name hi
  | primitive | literal =>
    refine other _ _ (by simp) ?_
    rintro child (_ | _)
  | list _ _ hi | optional _ _ hi =>
    refine other _ _ (by simp) fun child hc => ?_
    exact List.mem_singleton.mp hc ▸ hi
  | tuple _ _ hi => exact other _ _ (by simp) hi
  | union _ _ hi => exact other _ _ (by simp) fun child hc => hi child hc false
  | struct _ _ hi =>
    refine other _ _ (by simp) fun child hc => ?_
    obtain ⟨member, hm, rfl⟩ := List.mem_map.mp hc
    exact hi member hm

theorem Node.sizeOf_child_lt {child node : Node} (h : child ∈ node.children) : sizeOf child < sizeOf node := by
  cases node with
  | primitive | literal | reference => cases h
  | list | optional => simp [List.mem_singleton.mp h]
  | tuple           => exact sizeOf_slot_lt h
  | union           => exact sizeOf_member_lt h
  | struct          =>
    obtain ⟨member, hm, rfl⟩ := List.mem_map.mp h
    exact sizeOf_field_lt hm

-- Names are not followed.
theorem Node.children_induction {motive : Node → Prop}
    (h : ∀ node, (∀ child ∈ node.children, motive child) → motive node) (node : Node) : motive node :=
  h node fun child _ => children_induction h child
termination_by sizeOf node
decreasing_by exact sizeOf_child_lt ‹_›

namespace References

theorem flattenMembers_eq_flatMap (members : List (String × References)) :
    flattenMembers members = members.flatMap fun member => member.snd.flatten := by
  induction members with
  | nil => rfl
  | cons member rest hi => rw [flattenMembers, hi, List.flatMap_cons]

theorem flattenSlots_eq_flatMap (parts : List References) : flattenSlots parts = parts.flatMap flatten := by
  induction parts with
  | nil => rfl
  | cons part rest hi => rw [flattenSlots, hi, List.flatMap_cons]

end References

namespace Collection

-- The same collection with nothing hidden.
def unfiltered (c : Collection) : Collection :=
  { c with admits := fun _ => true }

-- Behind the name the walk goes on with a node.
def Enters (c : Collection) (ctx : Context) (name : String) (node : Node) (inside : Context) : Prop :=
  c.transitive ∧ ctx.reference c.space name = .node node inside

theorem enters_or_stays (c : Collection) (ctx : Context) (name : String) :
    (∃ node inside, c.Enters ctx name node inside) ∨ ∀ node inside, ¬c.Enters ctx name node inside :=
  (Classical.em _).imp_right fun h node inside he => h ⟨node, inside, he⟩

theorem shown_unfiltered (c : Collection) (name : String) : c.unfiltered.shown name = [name] :=
  rfl

theorem shown_eq_filter (c : Collection) (name : String) : c.shown name = [name].filter c.admits := by
  rw [shown, List.filter_singleton, Bool.cond_eq_ite]

section Mentions

variable {c : Collection} {ctx inside : Context} {name : String} {node : Node}

theorem mentions_of_enters (h : c.Enters ctx name node inside) :
    c.mentions ctx (.reference name) = c.shown name ++ c.mentions inside node := by
  obtain ⟨ht, hr⟩ := h
  rw [mentions, if_pos ht]
  split
  case h_1 hn =>
    cases hr.symm.trans hn
    rfl
  all_goals simp_all

theorem mentions_of_stays (h : ∀ node inside, ¬c.Enters ctx name node inside) :
    c.mentions ctx (.reference name) = c.shown name := by
  rw [mentions]
  split
  case isTrue ht =>
    split
    case h_1 hr => exact absurd ⟨ht, hr⟩ (h _ _)
    all_goals exact List.append_nil _
  case isFalse => exact List.append_nil _

theorem mentionsAll_eq_flatMap (nodes : List Node) :
    c.mentionsAll ctx nodes = nodes.flatMap (c.mentions ctx) := by
  induction nodes with
  | nil => rw [mentionsAll, List.flatMap_nil]
  | cons node rest hi => rw [mentionsAll, hi, List.flatMap_cons]

theorem mentionsFields_eq (members : List (String × Node)) :
    c.mentionsFields ctx members = c.mentionsAll ctx (members.map Prod.snd) := by
  induction members with
  | nil => rw [mentionsFields, List.map_nil, mentionsAll]
  | cons member rest hi => rw [mentionsFields, hi, List.map_cons, mentionsAll]

theorem mentions_of_children (h : ∀ name, node ≠ .reference name) :
    c.mentions ctx node = c.mentionsAll ctx node.children := by
  cases node with
  | reference name      => exact absurd rfl (h name)
  | struct              => rw [mentions, mentionsFields_eq, Node.children]
  | primitive | literal => rw [mentions, Node.children, mentionsAll]
  | tuple | union       => rw [mentions, Node.children]
  | list | optional     => rw [mentions, Node.children, mentionsAll, mentionsAll, List.append_nil]

theorem mentions_eq_filter (c : Collection) (ctx : Context) (node : Node) :
    c.mentions ctx node = (c.unfiltered.mentions ctx node).filter c.admits := by
  induction ctx, node using Context.children_induction c.space with
  | reference ctx name hi =>
    rcases c.enters_or_stays ctx name with ⟨node, inside, he⟩ | hs
    case inl =>
      have hu : c.unfiltered.Enters ctx name node inside := he
      rw [mentions_of_enters he, mentions_of_enters hu, List.filter_append, shown_unfiltered,
        shown_eq_filter, hi node inside he.right]
    case inr =>
      have hu : ∀ node inside, ¬c.unfiltered.Enters ctx name node inside := hs
      rw [mentions_of_stays hs, mentions_of_stays hu, shown_unfiltered, shown_eq_filter]
  | other ctx node hr hi =>
    rw [mentions_of_children hr, mentions_of_children hr, mentionsAll_eq_flatMap,
      mentionsAll_eq_flatMap, List.filter_flatMap]
    exact List.flatMap_congr hi

-- What is mentioned at a name, and what is mentioned anywhere else.
theorem mem_mentions_reference {other : String} :
    name ∈ c.unfiltered.mentions ctx (.reference other) ↔
      name = other ∨
        ∃ node inside, c.Enters ctx other node inside ∧ name ∈ c.unfiltered.mentions inside node := by
  rcases c.enters_or_stays ctx other with ⟨node, inside, he⟩ | hs
  case inl =>
    have hu : c.unfiltered.Enters ctx other node inside := he
    rw [mentions_of_enters hu, shown_unfiltered, List.singleton_append, List.mem_cons]
    refine or_congr_right ⟨fun hm => ⟨node, inside, he, hm⟩, ?_⟩
    rintro ⟨node', inside', he', hm⟩
    cases he.right.symm.trans he'.right
    exact hm
  case inr =>
    have hu : ∀ node inside, ¬c.unfiltered.Enters ctx other node inside := hs
    rw [mentions_of_stays hu, shown_unfiltered, List.mem_singleton]
    refine (or_iff_left ?_).symm
    rintro ⟨node, inside, he, _⟩
    exact hs node inside he

theorem mem_mentions_children (h : ∀ name, node ≠ .reference name) :
    name ∈ c.mentions ctx node ↔ ∃ child ∈ node.children, name ∈ c.mentions ctx child := by
  rw [mentions_of_children h, mentionsAll_eq_flatMap, List.mem_flatMap]

-- Every name in a node is mentioned, whatever is on the way.
theorem mem_mentions_of_part (h : Node.Part (.reference name) node) :
    name ∈ c.unfiltered.mentions ctx node := by
  induction ctx, node using Context.children_induction c.space with
  | reference ctx other hi =>
    cases Node.part_reference_iff.mp h
    exact mem_mentions_reference.mpr (.inl rfl)
  | other ctx node hr hi =>
    rcases h.eq_or_child with he | ⟨child, hc, hp⟩
    case inl => exact absurd he.symm (hr name)
    case inr => exact (mem_mentions_children hr).mpr ⟨child, hc, hi child hc hp⟩

theorem reaches_of_mem_mentions (h : name ∈ c.unfiltered.mentions ctx node) :
    Node.Reaches c.space (.reference name) node := by
  induction ctx, node using Context.children_induction c.space with
  | reference ctx other hi =>
    rcases mem_mentions_reference.mp h with rfl | ⟨node, inside, he, hm⟩
    case inl => exact .part .self
    case inr =>
      have hs := (Context.reference_eq_node_iff.mp he.right).left
      exact .name .self hs (hi node inside he.right hm)
  | other ctx node hr hi =>
    obtain ⟨child, hc, hm⟩ := (mem_mentions_children hr).mp h
    exact (hi child hc hm).within (.child hc .self)

theorem shapeFields_eq_map (members : List (String × Node)) :
    c.shapeFields members = members.map fun member => (member.fst, c.shape member.snd) := by
  induction members with
  | nil => rfl
  | cons member rest hi => rw [shapeFields, hi, List.map_cons]

theorem shapeSlots_eq_map (slots : List Node) : c.shapeSlots slots = slots.map c.shape := by
  induction slots with
  | nil => rfl
  | cons slot rest hi => rw [shapeSlots, hi, List.map_cons]

-- The form of the node shows all mentions in their order.
theorem flatten_shape (node : Node) : (c.shape node).flatten = c.mentions {} node := by
  induction node using Node.children_induction with
  | h node hi =>
  cases node with
  | struct members =>
    rw [shape, References.flatten, shapeFields_eq_map, References.flattenMembers_eq_flatMap, mentions,
      mentionsFields_eq, mentionsAll_eq_flatMap, List.flatMap_map, List.flatMap_map]
    exact List.flatMap_congr fun member hm => hi member.snd (List.mem_map_of_mem hm)
  | tuple slots =>
    rw [shape, References.flatten, shapeSlots_eq_map, References.flattenSlots_eq_flatMap, mentions,
      mentionsAll_eq_flatMap, List.flatMap_map]
    exact List.flatMap_congr hi
  | optional inner =>
    rw [shape, mentions]
    exact hi inner (.head _)
  | primitive | literal | reference | list | union => simp only [shape, References.flatten]

end Mentions

end Collection

end JsonShape
