import JsonShape.Proofs.References.Walk

namespace JsonShape

namespace Collection

namespace Discovery

variable {d : Discovery} {walk others : List String → Discovery}

theorem bind_nil : d.bind (⟨[], ·⟩) = d := by
  simp only [bind, List.append_nil]

theorem bind_assoc : (d.bind walk).bind others = d.bind fun visited => (walk visited).bind others := by
  simp only [bind, List.append_assoc]

end Discovery

-- A pass over a list of names that takes the ones that have not been visited.
def sift (c : Collection) (visited : List String) : List String → Discovery
  | [] => ⟨[], visited⟩
  | name :: rest =>
    if name ∈ visited then c.sift visited rest
    else (⟨c.shown name, name :: visited⟩ : Discovery).bind (c.sift · rest)

section Sift

variable {c : Collection} {name : String} {visited names others : List String}

theorem sift_append :
    c.sift visited (names ++ others) = (c.sift visited names).bind (c.sift · others) := by
  induction names generalizing visited with
  | nil => rfl
  | cons name rest hi =>
    rw [List.cons_append, sift, sift]
    split
    case isTrue  => exact hi
    case isFalse => simp only [Discovery.bind_assoc, hi]

theorem sift_of_subset (h : names ⊆ visited) : c.sift visited names = ⟨[], visited⟩ := by
  induction names with
  | nil => rfl
  | cons name rest hi =>
    obtain ⟨hn, hr⟩ := List.cons_subset.mp h
    rw [sift, if_pos hn, hi hr]

theorem mem_visited_sift : name ∈ (c.sift visited names).visited ↔ name ∈ visited ∨ name ∈ names := by
  induction names generalizing visited with
  | nil => simp [sift]
  | cons first rest hi =>
    rw [sift]
    split
    case isTrue h =>
      have hf : name = first → name ∈ visited := (· ▸ h)
      simp only [hi, List.mem_cons]
      tauto
    case isFalse =>
      simp only [Discovery.bind, hi, List.mem_cons]
      tauto

-- What a pass shows are the first occurrences of the names that are new and not hidden.
theorem found_sift :
    (c.sift visited names).found =
      (names.filter fun name => c.admits name ∧ name ∉ visited).eraseDups := by
  induction names generalizing visited with
  | nil => rfl
  | cons name rest hi =>
    rw [sift]
    split
    case isTrue h => rw [hi, List.filter_cons_of_neg (by simp [h])]
    case isFalse h =>
      simp only [Discovery.bind, hi, shown]
      split
      case isTrue ha =>
        rw [List.filter_cons_of_pos (by simp [h, ha]), List.eraseDups_cons, List.filter_filter,
          List.singleton_append]
        congr 2
        refine List.filter_congr fun other _ => ?_
        by_cases he : other = name <;> simp [he]
      case isFalse ha =>
        rw [List.filter_cons_of_neg (by simp [ha]), List.nil_append]
        congr 1
        refine List.filter_congr fun other _ => ?_
        by_cases he : other = name <;> simp [he, ha]

end Sift

section Discover

variable {c : Collection} {ctx inside : Context} {name : String} {node : Node}
variable {seen visited names : List String}

theorem discover_of_visited (h : name ∈ visited) :
    c.discover ctx (.reference name) visited = ⟨[], visited⟩ := by
  rw [discover, if_pos h]

theorem discover_of_enters (hn : name ∉ visited) (h : c.Enters ctx name node inside) :
    c.discover ctx (.reference name) visited =
      (⟨c.shown name, name :: visited⟩ : Discovery).bind (c.discover inside node) := by
  obtain ⟨ht, hr⟩ := h
  rw [discover, if_neg hn]
  simp only [if_pos ht]
  split
  case h_1 hs =>
    cases hr.symm.trans hs
    rfl
  all_goals simp_all

theorem discover_of_stays (hn : name ∉ visited) (h : ∀ node inside, ¬c.Enters ctx name node inside) :
    c.discover ctx (.reference name) visited = ⟨c.shown name, name :: visited⟩ := by
  rw [discover, if_neg hn]
  split
  case isTrue ht =>
    split
    case h_1 hr => exact absurd ⟨ht, hr⟩ (h _ _)
    all_goals rfl
  case isFalse => rfl

theorem discoverFields_eq (members : List (String × Node)) :
    c.discoverFields ctx members = c.discoverAll ctx (members.map Prod.snd) := by
  induction members with
  | nil =>
    funext visited
    rw [discoverFields, List.map_nil, discoverAll]
  | cons member rest hi =>
    funext visited
    rw [discoverFields, hi, List.map_cons, discoverAll]

theorem discover_of_children (h : ∀ name, node ≠ .reference name) :
    c.discover ctx node visited = c.discoverAll ctx node.children visited := by
  cases node with
  | reference name      => exact absurd rfl (h name)
  | struct              => rw [discover, discoverFields_eq, Node.children]
  | primitive | literal => rw [discover, Node.children, discoverAll]
  | tuple | union       => rw [discover, Node.children]
  | list | optional     =>
    have he : c.discoverAll ctx [] = (⟨[], ·⟩) := by
      funext visited
      rw [discoverAll]
    rw [discover, Node.children, discoverAll, he, Discovery.bind_nil]

-- The names on the way have been visited, and for any other visited name whatever its node refers to.
structure Settled (c : Collection) (seen visited : List String) : Prop where
  onWay  : seen ⊆ visited
  closed : c.transitive → ∀ name ∈ visited, name ∉ seen → ∀ node, c.space.resolve? name = some node →
    ∀ other, Node.Part (.reference other) node → other ∈ visited

namespace Settled

theorem start : c.Settled [] [] where
  onWay    := List.nil_subset _
  closed _ := by simp

theorem enter (h : c.Settled seen visited) (name : String) :
    c.Settled (seen ++ [name]) (name :: visited) where
  onWay other hm := by
    rcases List.mem_append.mp hm with hm | hm
    · exact .tail _ (h.onWay hm)
    · exact List.mem_singleton.mp hm ▸ .head _
  closed ht first hm hn node hr other hp := by
    rw [List.mem_append, List.mem_singleton, not_or] at hn
    obtain ⟨hs, hn⟩ := hn
    have hv : first ∈ visited := (List.mem_cons.mp hm).resolve_left hn
    exact .tail _ (h.closed ht first hv hs node hr other hp)

-- Behind a name the walk is done when it has been to all that the node of the name refers to.
theorem leave (h : c.Settled (seen ++ [name]) visited)
    (hn : c.transitive → ∀ node, c.space.resolve? name = some node →
      ∀ other, Node.Part (.reference other) node → other ∈ visited) : c.Settled seen visited where
  onWay := (List.append_subset.mp h.onWay).left
  closed ht first hm hs node hr other hp := by
    by_cases he : first = name
    case pos => exact hn ht node (he ▸ hr) other hp
    case neg =>
      refine h.closed ht first hm ?_ node hr other hp
      simp [hs, he]

-- Another walk from where all names have been visited meets no new name, however far it goes.
theorem mentions_subset (h : c.Settled seen visited) (hs : seen ⊆ ctx.seen)
    (hp : ∀ name, Node.Part (.reference name) node → name ∈ visited) :
    c.unfiltered.mentions ctx node ⊆ visited := by
  intro name hm
  induction ctx, node using Context.children_induction c.space with
  | reference ctx other hi =>
    rcases mem_mentions_reference.mp hm with rfl | ⟨node, inside, he, hm⟩
    case inl => exact hp name .self
    case inr =>
      obtain ⟨hr, hn, rfl⟩ := Context.reference_eq_node_iff.mp he.right
      have ho : other ∉ seen := fun ho => hn (hs ho)
      refine hi node _ he.right ?_ ?_ hm
      · exact List.Subset.trans hs (List.subset_append_left _ _)
      · exact h.closed he.left other (hp other .self) ho node hr
  | other ctx node hr hi =>
    obtain ⟨child, hc, hm⟩ := (mem_mentions_children hr).mp hm
    exact hi child hc hs (fun name h => hp name (h.child hc)) hm

-- With no name on the way any more, all names that can be reached have been visited.
theorem mem_of_reaches (h : c.Settled [] visited) (ht : c.transitive)
    (hp : ∀ name, Node.Part (.reference name) node → name ∈ visited)
    (hr : Node.Reaches c.space (.reference name) node) : name ∈ visited := by
  induction hr with
  | part hn => exact hp name hn
  | name hn hs _ hi => exact hi (h.closed ht _ (hp _ hn) List.not_mem_nil _ hs)

end Settled

-- The walk did what a pass over the names does, and leaves nothing to do but on the way.
structure IsSifted (c : Collection) (seen visited names : List String) (d : Discovery) : Prop where
  eq_sift : d = c.sift visited names
  settled : c.Settled seen d.visited

theorem IsSifted.nil (h : c.Settled seen visited) : c.IsSifted seen visited [] ⟨[], visited⟩ where
  eq_sift := rfl
  settled := h

theorem IsSifted.append {d : Discovery} {walk : List String → Discovery} {others : List String}
    (h : c.IsSifted seen visited names d) (ho : c.IsSifted seen d.visited others (walk d.visited)) :
    c.IsSifted seen visited (names ++ others) (d.bind walk) where
  eq_sift := by
    rw [sift_append, ← h.eq_sift, Discovery.bind, ho.eq_sift, Discovery.bind]
  settled := ho.settled

theorem discoverAll_isSifted {nodes : List Node}
    (hi : ∀ node ∈ nodes, ∀ visited, c.Settled ctx.seen visited →
      c.IsSifted ctx.seen visited (c.unfiltered.mentions ctx node) (c.discover ctx node visited))
    (h : c.Settled ctx.seen visited) :
    c.IsSifted ctx.seen visited (c.unfiltered.mentionsAll ctx nodes) (c.discoverAll ctx nodes visited) := by
  induction nodes generalizing visited with
  | nil =>
    rw [mentionsAll, discoverAll]
    exact .nil h
  | cons node rest hr =>
    rw [mentionsAll, discoverAll]
    have hd := hi node (.head _) visited h
    exact hd.append (hr (fun node hm => hi node (.tail _ hm)) hd.settled)

theorem discover_isSifted (h : c.Settled ctx.seen visited) :
    c.IsSifted ctx.seen visited (c.unfiltered.mentions ctx node) (c.discover ctx node visited) := by
  induction ctx, node using Context.children_induction c.space generalizing visited with
  | reference ctx name hi =>
    by_cases hv : name ∈ visited
    case pos =>
      have hm : c.unfiltered.mentions ctx (.reference name) ⊆ visited := by
        refine h.mentions_subset (List.Subset.refl _) fun other hp => ?_
        cases Node.part_reference_iff.mp hp
        exact hv
      rw [discover_of_visited hv]
      exact ⟨(sift_of_subset hm).symm, h⟩
    case neg =>
      rcases c.enters_or_stays ctx name with ⟨node, inside, he⟩ | hs
      case inl =>
        have hu : c.unfiltered.Enters ctx name node inside := he
        obtain ⟨hr, -, rfl⟩ := Context.reference_eq_node_iff.mp he.right
        have hw := hi node _ he.right (h.enter name)
        rw [discover_of_enters hv he, mentions_of_enters hu, shown_unfiltered, List.singleton_append]
        refine ⟨?_, hw.settled.leave fun _ other ho part hp => ?_⟩
        · rw [sift, if_neg hv, Discovery.bind, Discovery.bind, hw.eq_sift]
        · cases hr.symm.trans ho
          simp only [hw.eq_sift]
          exact mem_visited_sift.mpr (.inr (mem_mentions_of_part hp))
      case inr =>
        have hu : ∀ node inside, ¬c.unfiltered.Enters ctx name node inside := hs
        rw [discover_of_stays hv hs, mentions_of_stays hu, shown_unfiltered]
        refine ⟨?_, (h.enter name).leave fun ht node hr => ?_⟩
        · rw [sift, if_neg hv]
          simp only [Discovery.bind, sift, List.append_nil]
        · have hn : name ∉ ctx.seen := fun hm => hv (h.onWay hm)
          exact absurd ⟨ht, Context.reference_eq_node_iff.mpr ⟨hr, hn, rfl⟩⟩ (hs _ _)
  | other ctx node hr hi =>
    rw [discover_of_children hr, mentions_of_children hr]
    exact discoverAll_isSifted (fun child hc visited h => hi child hc h) h

theorem discover_isSifted_start (c : Collection) (node : Node) :
    c.IsSifted [] [] (c.unfiltered.mentions {} node) (c.discover {} node []) :=
  @discover_isSifted c {} node [] .start

theorem found_discover (c : Collection) (node : Node) :
    (c.discover {} node []).found = (c.mentions {} node).eraseDups := by
  have h := c.discover_isSifted_start node
  rw [h.eq_sift, found_sift, c.mentions_eq_filter {} node]
  simp

theorem mem_mentions_iff_reaches (ht : c.transitive) :
    name ∈ c.unfiltered.mentions {} node ↔ Node.Reaches c.space (.reference name) node := by
  have h := c.discover_isSifted_start node
  have hv {name : String} : name ∈ (c.discover {} node []).visited ↔
      name ∈ c.unfiltered.mentions {} node := by
    rw [h.eq_sift, mem_visited_sift, or_iff_right List.not_mem_nil]
  constructor
  case mp  => exact reaches_of_mem_mentions
  case mpr =>
    intro hr
    exact hv.mp (h.settled.mem_of_reaches ht (fun _ hp => hv.mpr (mem_mentions_of_part hp)) hr)

end Discover

end Collection

section References

theorem nodup_eraseDups (names : List String) : names.eraseDups.Nodup :=
  match names with
  | [] => .nil
  | name :: rest => by
    rw [List.eraseDups_cons]
    exact List.nodup_cons.mpr ⟨by simp, nodup_eraseDups _⟩
termination_by names.length
decreasing_by exact Nat.lt_succ_of_le (List.length_filter_le ..)

variable (space : Typespace) (node : Node)

-- Names in a list without repetitions stand where the list of all mentions has them first.
theorem references_asUnorderedList (options : ReferencesOptions) :
    ∃ names, references space { options with asUnorderedList := false, asList := true } node = .names names ∧
      references space { options with asUnorderedList := true } node = .names names.eraseDups := by
  refine ⟨_, rfl, ?_⟩
  exact congrArg References.names (Collection.found_discover _ node)

-- Without a filter, a transitive list without repetitions has the names that can be reached.
theorem references_transitive (asList : Bool) :
    ∃ names, references space { asUnorderedList := true, asList, transitive := true } node = .names names ∧
      names.Nodup ∧
      ∀ name, name ∈ names ↔ Node.Reaches space.declarations (.reference name) node := by
  let c : Collection := { space := space.declarations, admits := fun _ => true, transitive := true }
  have hd : (c.discover {} node []).found = (c.mentions {} node).eraseDups := c.found_discover node
  refine ⟨(c.discover {} node []).found, rfl, ?nodup, fun name => ?reached⟩
  case nodup => exact hd ▸ nodup_eraseDups _
  case reached =>
    rw [hd, List.mem_eraseDups]
    exact @Collection.mem_mentions_iff_reaches c name node rfl

end References

end JsonShape
