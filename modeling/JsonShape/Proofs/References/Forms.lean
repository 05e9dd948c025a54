import JsonShape.Proofs.References.Discovery

namespace JsonShape

namespace References

mutual

-- Takes the names that are not to be kept out of every list.
def filter (keep : String → Bool) : References → References
  | .names list => .names (list.filter keep)
  | .shape members => .shape (filterMembers keep members)
  | .slots parts => .slots (filterSlots keep parts)

def filterMembers (keep : String → Bool) : List (String × References) → List (String × References)
  | [] => []
  | (key, references) :: rest => (key, references.filter keep) :: filterMembers keep rest

def filterSlots (keep : String → Bool) : List References → List References
  | [] => []
  | references :: rest => references.filter keep :: filterSlots keep rest

end

variable {keep : String → Bool}

theorem filterMembers_eq_map (members : List (String × References)) :
    filterMembers keep members = members.map fun member => (member.fst, member.snd.filter keep) := by
  induction members with
  | nil => rfl
  | cons member rest hi => rw [filterMembers, hi, List.map_cons]

theorem filterSlots_eq_map (parts : List References) : filterSlots keep parts = parts.map (·.filter keep) := by
  induction parts with
  | nil => rfl
  | cons part rest hi => rw [filterSlots, hi, List.map_cons]

end References

namespace Collection

namespace Discovery

-- Takes names out of the ones that were found, and out of nothing else.
def filter (keep : String → Bool) (d : Discovery) : Discovery where
  found   := d.found.filter keep
  visited := d.visited

theorem filter_bind {keep : String → Bool} {d : Discovery} {walk : List String → Discovery} :
    (d.bind walk).filter keep = (d.filter keep).bind fun visited => (walk visited).filter keep := by
  simp only [bind, filter, List.filter_append]

end Discovery

variable {c : Collection} {ctx : Context} {visited : List String}

theorem discoverAll_eq_filter {nodes : List Node}
    (h : ∀ node ∈ nodes, ∀ visited,
      c.discover ctx node visited = (c.unfiltered.discover ctx node visited).filter c.admits) :
    c.discoverAll ctx nodes visited = (c.unfiltered.discoverAll ctx nodes visited).filter c.admits := by
  induction nodes generalizing visited with
  | nil =>
    rw [discoverAll, discoverAll]
    rfl
  | cons node rest hi =>
    obtain ⟨hn, hr⟩ := List.forall_mem_cons.mp h
    rw [discoverAll, discoverAll, Discovery.filter_bind, hn]
    exact congrArg _ (funext fun _ => hi hr)

-- With and without a filter, the walk visits the same names.
theorem discover_eq_filter (node : Node) :
    c.discover ctx node visited = (c.unfiltered.discover ctx node visited).filter c.admits := by
  induction ctx, node using Context.children_induction c.space generalizing visited with
  | reference ctx name hi =>
    by_cases hv : name ∈ visited
    case pos =>
      rw [discover_of_visited hv, discover_of_visited hv]
      rfl
    case neg =>
      have hs : (⟨c.shown name, name :: visited⟩ : Discovery) =
          (⟨c.unfiltered.shown name, name :: visited⟩ : Discovery).filter c.admits := by
        rw [Discovery.filter, shown_unfiltered, shown_eq_filter]
      rcases c.enters_or_stays ctx name with ⟨node, inside, he⟩ | hn
      case inl =>
        have hu : c.unfiltered.Enters ctx name node inside := he
        rw [discover_of_enters hv he, discover_of_enters hv hu, Discovery.filter_bind, hs]
        exact congrArg _ (funext fun _ => hi node inside he.right)
      case inr =>
        have hu : ∀ node inside, ¬c.unfiltered.Enters ctx name node inside := hn
        rw [discover_of_stays hv hn, discover_of_stays hv hu, hs]
  | other ctx node hr hi =>
    rw [discover_of_children hr, discover_of_children hr]
    exact discoverAll_eq_filter fun child hc visited => hi child hc

theorem shape_eq_filter (node : Node) : c.shape node = (c.unfiltered.shape node).filter c.admits := by
  induction node using Node.children_induction with
  | h node hi =>
  cases node with
  | struct members =>
    rw [shape, shape, References.filter, shapeFields_eq_map, shapeFields_eq_map,
      References.filterMembers_eq_map, List.map_map, References.shape.injEq]
    refine List.map_congr_left fun member hm => ?_
    exact congrArg (member.fst, ·) (hi member.snd (List.mem_map_of_mem hm))
  | tuple slots =>
    rw [shape, shape, References.filter, shapeSlots_eq_map, shapeSlots_eq_map,
      References.filterSlots_eq_map, List.map_map, References.slots.injEq]
    exact List.map_congr_left hi
  | optional inner =>
    rw [shape, shape]
    exact hi inner (.head _)
  | primitive | literal | reference | list | union =>
    simp only [shape, References.filter, mentions_eq_filter c]

end Collection

section References

variable (space : Typespace) (options : ReferencesOptions) (node : Node)

-- The form of the node holds the names of the list in their order. A walk through one part of the node leaves
-- no name on the way to the next one (`Traversal.snd_run`).
theorem flatten_references :
    ∃ names, references space { options with asUnorderedList := false, asList := true } node = .names names ∧
      (references space { options with asUnorderedList := false, asList := false } node).flatten = names :=
  ⟨_, rfl, Collection.flatten_shape node⟩

-- Whatever the form, a filter takes the names that it does not admit out of the lists. A test of names admits the ones
-- that pass it.
theorem references_filter :
    (∀ filter : Filter, references space { options with filter := some filter } node =
      (references space { options with filter := none } node).filter filter.admits) ∧
    ∀ test : String → Bool, references space { options with filter := some (.predicate test) } node =
      (references space { options with filter := none } node).filter test := by
  have hf : ∀ filter : Filter, references space { options with filter := some filter } node =
      (references space { options with filter := none } node).filter filter.admits := by
    intro filter
    let c : Collection :=
      { space := space.declarations, admits := filter.admits, transitive := options.transitive }
    simp only [references]
    split
    case isTrue => exact congrArg (References.names ·.found) (c.discover_eq_filter node)
    case isFalse =>
      split
      case isTrue  => exact congrArg References.names (c.mentions_eq_filter {} node)
      case isFalse => exact c.shape_eq_filter node
  exact ⟨hf, fun test => hf (.predicate test)⟩

end References

end JsonShape
