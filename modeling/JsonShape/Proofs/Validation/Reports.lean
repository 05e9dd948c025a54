import Mathlib
import JsonShape.Proofs.Json.Entries
import JsonShape.Validation.Report

namespace JsonShape

namespace Report

variable {errors : List ValidationError} {e : ValidationError} {report other : Members String} {text : String}

-- The messages of the errors with this path text, in their order.
def messagesAt (errors : List ValidationError) (text : String) : List String :=
  (errors.filter fun e => e.path.text = text).map ValidationError.message

-- The place of the first error with this path text.
def firstPlace (errors : List ValidationError) (text : String) : Nat :=
  errors.findIdx fun e => e.path.text = text

-- What a report has to be for these errors: the names of its entries are the texts of the paths, one stands in front of
-- another if it came up first, and an entry holds all messages with its text.
structure Groups (errors : List ValidationError) (report : Members String) : Prop where
  mem_names_iff : ∀ text, text ∈ report.names ↔ ∃ e ∈ errors, e.path.text = text
  ordered : report.names.Pairwise (firstPlace errors · < firstPlace errors ·)
  lookup : ∀ text ∈ report.names, report.lookup text = some ("\n".intercalate (messagesAt errors text))

theorem firstPlace_lt_length (h : ∃ e ∈ errors, e.path.text = text) : firstPlace errors text < errors.length :=
  List.findIdx_lt_length_of_exists (by simpa using h)

theorem firstPlace_concat_of_exists (h : ∃ e ∈ errors, e.path.text = text) :
    firstPlace (errors ++ [e]) text = firstPlace errors text :=
  List.findIdx_append.trans (if_pos (firstPlace_lt_length h))

theorem firstPlace_concat_self (h : ¬∃ other ∈ errors, other.path.text = e.path.text) :
    firstPlace (errors ++ [e]) e.path.text = errors.length := by
  have hn : errors.findIdx (fun other => other.path.text = e.path.text) = errors.length := by
    rw [List.findIdx_eq_length]
    simpa using h
  rw [firstPlace, List.findIdx_append, if_neg hn.not_lt]
  simp

theorem messagesAt_concat :
    messagesAt (errors ++ [e]) text = messagesAt errors text ++ if e.path.text = text then [e.message] else [] := by
  by_cases h : e.path.text = text <;> simp [messagesAt, h]

theorem messagesAt_eq_nil_iff : messagesAt errors text = [] ↔ ¬∃ e ∈ errors, e.path.text = text := by
  simp [messagesAt]

theorem messagesAt_ne_nil (h : e ∈ errors) : messagesAt errors e.path.text ≠ [] :=
  fun hn => messagesAt_eq_nil_iff.mp hn ⟨e, h, rfl⟩

theorem intercalate_concat {messages : List String} {message : String} (h : messages ≠ []) :
    "\n".intercalate (messages ++ [message]) = "\n".intercalate messages ++ "\n" ++ message := by
  rw [String.intercalate_append_of_ne_nil h (List.cons_ne_nil message []), String.intercalate_singleton]

theorem byPath_concat : byPath (errors ++ [e]) = insert (byPath errors) e :=
  List.foldl_append

theorem names_insert :
    (insert report e).names =
      if e.path.text ∈ report.names then report.names else report.names ++ [e.path.text] :=
  Members.names_set

theorem mem_names_insert : text ∈ (insert report e).names ↔ text ∈ report.names ∨ e.path.text = text := by
  rw [names_insert]
  split
  case isTrue hm =>
    refine ⟨.inl, ?_⟩
    rintro (h | rfl)
    case inl => exact h
    case inr => exact hm
  case isFalse => simp [eq_comm]

theorem flatMap_ite_eq {names messages : List String} (hd : names.Nodup) (hm : text ∈ names) :
    (names.flatMap fun name => if text = name then messages else []) = messages := by
  obtain ⟨front, back, rfl, hf⟩ := List.eq_append_cons_of_mem hm
  have hb : text ∉ back := (List.nodup_cons.mp (List.nodup_append.mp hd).right.left).left
  have hn : ∀ names : List String, text ∉ names →
      (names.flatMap fun name => if text = name then messages else []) = [] := by
    intro names hm
    refine List.flatMap_eq_nil_iff.mpr fun name hi => if_neg ?_
    rintro rfl
    exact hm hi
  rw [List.flatMap_append, List.flatMap_cons, hn front hf, hn back hb, if_pos rfl, List.nil_append, List.append_nil]

-- Each message is found under one of the names, and only there.
theorem perm_flatMap_messagesAt {names : List String} (hd : names.Nodup) (h : ∀ e ∈ errors, e.path.text ∈ names) :
    (names.flatMap (messagesAt errors)).Perm (errors.map ValidationError.message) := by
  induction errors using List.reverseRecOn with
  | nil => simp [messagesAt]
  | append_singleton errors e hi =>
    obtain ⟨hr, he⟩ := List.forall_mem_append.mp h
    have hm : messagesAt (errors ++ [e]) =
        fun text => messagesAt errors text ++ if e.path.text = text then [e.message] else [] :=
      funext fun _ => messagesAt_concat
    rw [hm, List.map_append, List.map_singleton]
    refine (List.flatMap_append_perm ..).symm.trans ?_
    rw [flatMap_ite_eq hd (he e (List.mem_singleton_self e))]
    exact (hi hr).append_right _

namespace Groups

theorem nil : Groups [] [] where
  mem_names_iff := by simp [Members.names]
  ordered := .nil
  lookup := by simp [Members.names]

theorem messagesAt_eq_nil_iff (h : Groups errors report) : messagesAt errors text = [] ↔ text ∉ report.names :=
  Report.messagesAt_eq_nil_iff.trans (h.mem_names_iff text).not.symm

-- One more error moves none of the names, and a new name comes behind them.
theorem ordered_insert (h : Groups errors report) :
    (Report.insert report e).names.Pairwise (firstPlace (errors ++ [e]) · < firstPlace (errors ++ [e]) ·) := by
  have hf : ∀ text ∈ report.names, firstPlace (errors ++ [e]) text = firstPlace errors text :=
    fun text ht => firstPlace_concat_of_exists ((h.mem_names_iff text).mp ht)
  have ho : report.names.Pairwise (firstPlace (errors ++ [e]) · < firstPlace (errors ++ [e]) ·) := by
    refine h.ordered.imp_of_mem fun ht hu hlt => ?_
    rwa [hf _ ht, hf _ hu]
  rw [names_insert]
  split
  case isTrue => exact ho
  case isFalse hm =>
    refine List.pairwise_append.mpr ⟨ho, List.pairwise_singleton .., fun text ht new hn => ?_⟩
    rw [List.mem_singleton.mp hn, hf text ht, firstPlace_concat_self (mt (h.mem_names_iff _).mpr hm)]
    exact firstPlace_lt_length ((h.mem_names_iff text).mp ht)

theorem lookup_insert_self (h : Groups errors report) :
    (Report.insert report e).lookup e.path.text =
      some ("\n".intercalate (messagesAt (errors ++ [e]) e.path.text)) := by
  rw [Report.insert, Members.lookup_set_self, messagesAt_concat, if_pos rfl]
  by_cases hm : e.path.text ∈ report.names
  case pos =>
    have hn : messagesAt errors e.path.text ≠ [] := mt h.messagesAt_eq_nil_iff.mp (not_not_intro hm)
    rw [h.lookup _ hm, Option.elim_some, intercalate_concat hn]
  case neg =>
    rw [Members.lookup_eq_none_iff.mpr hm, h.messagesAt_eq_nil_iff.mpr hm, Option.elim_none, List.nil_append,
      String.intercalate_singleton]

-- A report of the first errors is carried on to one of all errors.
theorem insert (h : Groups errors report) (e : ValidationError) :
    Groups (errors ++ [e]) (Report.insert report e) := by
  constructor
  case mem_names_iff =>
    intro text
    rw [mem_names_insert, h.mem_names_iff]
    simp [or_and_right, exists_or]
  case ordered => exact h.ordered_insert
  case lookup =>
    intro text ht
    by_cases he : e.path.text = text
    case pos => exact he ▸ h.lookup_insert_self
    case neg =>
      rw [Report.insert, Members.lookup_set_of_ne he, messagesAt_concat, if_neg he, List.append_nil]
      exact h.lookup text ((mem_names_insert.mp ht).resolve_right he)

theorem distinct (h : Groups errors report) : report.Distinct :=
  h.ordered.imp fun hlt he => hlt.ne (congrArg _ he)

theorem eq_map (h : Groups errors report) :
    report = report.names.map fun text => (text, "\n".intercalate (messagesAt errors text)) := by
  rw [Members.names, List.map_map]
  refine (List.map_id' report).symm.trans (List.map_congr_left fun entry hm => ?_)
  obtain ⟨text, message⟩ := entry
  have hl : report.lookup text = some message := (Members.lookup_eq_some_iff h.distinct).mpr hm
  have hj := h.lookup text (List.mem_map_of_mem hm)
  exact congrArg (Prod.mk text) (Option.some.inj (hl.symm.trans hj))

-- The texts and their order leave no choice for the names, nor do these for the entries.
theorem unique (h : Groups errors report) (ho : Groups errors other) : report = other := by
  have : Std.Antisymm (firstPlace errors · < firstPlace errors ·) := ⟨fun _ _ hl hr => absurd hr hl.asymm⟩
  have : Std.Irrefl (firstPlace errors · < firstPlace errors ·) := ⟨fun _ => Nat.lt_irrefl _⟩
  have hn : report.names = other.names :=
    h.ordered.eq_of_mem_iff ho.ordered fun text => (h.mem_names_iff text).trans (ho.mem_names_iff text).symm
  rw [h.eq_map, ho.eq_map, hn]

theorem perm_messages (h : Groups errors report) :
    (report.names.flatMap (messagesAt errors)).Perm (errors.map ValidationError.message) :=
  perm_flatMap_messagesAt h.distinct fun e he => (h.mem_names_iff _).mpr ⟨e, he, rfl⟩

end Groups

-- The induction takes the last error off, since the report of the others is what this one was added to.
theorem groups_byPath : Groups errors (byPath errors) := by
  induction errors using List.reverseRecOn with
  | nil => exact .nil
  | append_singleton errors e hi => exact byPath_concat ▸ hi.insert e

-- The report of the errors is the one that groups them, and it holds every message.
theorem grouping_exact (errors : List ValidationError) :
    (∀ report, report = byPath errors ↔ Groups errors report) ∧
      ((byPath errors).names.flatMap (messagesAt errors)).Perm (errors.map ValidationError.message) := by
  have h : Groups errors (byPath errors) := groups_byPath
  refine ⟨fun report => ⟨?groups, fun hr => hr.unique h⟩, h.perm_messages⟩
  case groups =>
    rintro rfl
    exact h

example : byPath [⟨[.key "k"], "one"⟩, ⟨[], "x"⟩, ⟨[.key "k"], "two"⟩] = [("k", "one\ntwo"), ("", "x")] := by decide

theorem eraseDups_concat {names : List String} {name : String} :
    (names ++ [name]).eraseDups = if name ∈ names then names.eraseDups else names.eraseDups ++ [name] := by
  rw [List.eraseDups_append, List.removeAll]
  by_cases h : name ∈ names <;> simp [h, List.eraseDups_cons]

theorem names_byPath : (byPath errors).names = (errors.map fun e => e.path.text).eraseDups := by
  induction errors using List.reverseRecOn with
  | nil => rfl
  | append_singleton errors e hi =>
    rw [byPath_concat, names_insert, hi, List.map_append, List.map_singleton, eraseDups_concat]
    simp only [List.mem_eraseDups]

theorem byPath_eq_nil_iff : byPath errors = [] ↔ errors = [] := by
  constructor
  case mp =>
    intro h
    refine List.eq_nil_iff_forall_not_mem.mpr fun e he => ?_
    have hm : e.path.text ∈ (byPath errors).names := (groups_byPath.mem_names_iff _).mpr ⟨e, he, rfl⟩
    rw [h] at hm
    cases hm
  case mpr => rintro rfl; rfl

theorem lookup_byPath :
    (byPath errors).lookup text =
      if messagesAt errors text = [] then none else some ("\n".intercalate (messagesAt errors text)) := by
  have h : Groups errors (byPath errors) := groups_byPath
  split
  case isTrue hn => exact Members.lookup_eq_none_iff.mpr (h.messagesAt_eq_nil_iff.mp hn)
  case isFalse hn => exact h.lookup text (not_not.mp (mt h.messagesAt_eq_nil_iff.mpr hn))

theorem map_path_text : (errors.map fun e => e.path.text) = (errors.map ValidationError.path).map Path.text := by
  rw [List.map_map]
  rfl

theorem byPath_eq_map_iff :
    byPath errors = errors.map (fun e => (e.path.text, e.message)) ↔ (errors.map fun e => e.path.text).Nodup := by
  constructor
  case mp =>
    intro h
    have hd : (byPath errors).Distinct := groups_byPath.distinct
    rwa [h, Members.Distinct, Members.names, List.map_map] at hd
  case mpr =>
    intro h
    induction errors using List.reverseRecOn with
    | nil => rfl
    | append_singleton errors e hi =>
      rw [List.map_append] at h ⊢
      obtain ⟨hd, -, hn⟩ := List.nodup_append.mp h
      have hm : e.path.text ∉ (byPath errors).names := by
        rw [names_byPath, List.mem_eraseDups]
        exact fun hm => hn _ hm _ (List.mem_singleton_self _) rfl
      rw [byPath_concat, insert, Members.lookup_eq_none_iff.mpr hm, Members.set_of_not_mem hm, hi hd]
      rfl

end Report

end JsonShape
