import Mathlib
import JsonShape.CommandLine.Run

namespace JsonShape

-- There is more than white space on the line.
def isFilled (row : List Char) : Bool :=
  !row.all isBlank

-- The value that is read from a line.
def LineHolds (row : List Char) (value : Json) : Prop :=
  loadText .value (String.ofList row) = .ok value

variable {number i : Nat} {row bad : List Char} {rows : List (List Char)} {value : Json} {e : LoadError}

theorem loadLines_of_blank (h : ¬isFilled row) :
    loadLines number (row :: rows) = loadLines (number + 1) rows := by
  have hb : row.all isBlank := by simpa [isFilled] using h
  rw [loadLines, if_pos hb]

theorem loadLines_of_error (h : isFilled row) (he : loadText .value (String.ofList row) = .error e) :
    loadLines number (row :: rows) = .error (.line number e) := by
  have hb : ¬row.all isBlank := by simpa [isFilled] using h
  rw [loadLines, if_neg hb, he]

theorem loadLines_of_holds (h : isFilled row) (hv : LineHolds row value) :
    loadLines number (row :: rows) = (loadLines (number + 1) rows).map (value :: ·) := by
  have hb : ¬row.all isBlank := by simpa [isFilled] using h
  rw [loadLines, if_neg hb, hv]
  cases loadLines (number + 1) rows <;> rfl

-- The values are those of the lines that are not blank, in their order.
theorem exists_loadLines (h : ∀ row ∈ rows, isFilled row → ∃ value, LineHolds row value) :
    ∃ values, loadLines number rows = .ok values ∧ List.Forall₂ LineHolds (rows.filter isFilled) values := by
  induction rows generalizing number with
  | nil => exact ⟨[], rfl, .nil⟩
  | cons row rows hi =>
    obtain ⟨hr, h⟩ := List.forall_mem_cons.mp h
    obtain ⟨values, hl, hv⟩ := @hi (number + 1) h
    by_cases hf : isFilled row
    case neg =>
      rw [loadLines_of_blank hf, List.filter_cons_of_neg hf]
      exact ⟨values, hl, hv⟩
    case pos =>
      obtain ⟨value, hr⟩ := hr hf
      rw [loadLines_of_holds hf hr, List.filter_cons_of_pos hf, hl]
      exact ⟨value :: values, rfl, .cons hr hv⟩

-- An error names the line where it is, whatever lines are in front.
theorem loadLines_set (h : ∀ row ∈ rows, isFilled row → ∃ value, LineHolds row value) (hi : i < rows.length)
    (hb : isFilled bad) (he : loadText .value (String.ofList bad) = .error e) :
    loadLines number (rows.set i bad) = .error (.line (number + i) e) := by
  induction rows generalizing number i with
  | nil => cases hi
  | cons row rows ih =>
    obtain ⟨hr, h⟩ := List.forall_mem_cons.mp h
    cases i with
    | zero => exact loadLines_of_error hb he
    | succ i =>
      have ih := @ih (number + 1) i h (Nat.lt_of_succ_lt_succ hi)
      rw [Nat.add_right_comm number 1 i, Nat.add_assoc] at ih
      rw [List.set_cons_succ]
      by_cases hf : isFilled row
      case neg => rw [loadLines_of_blank hf, ih]
      case pos =>
        obtain ⟨value, hr⟩ := hr hf
        rw [loadLines_of_holds hf hr, ih, Except.map]

-- What passes a filter comes behind what passes it in front.
theorem getElem?_filter_countP {α : Type} {p : α → Bool} {list : List α} {a : α} (h : list[i]? = some a)
    (hp : p a) : (list.filter p)[(list.take i).countP p]? = some a := by
  obtain ⟨hi, rfl⟩ := List.getElem?_eq_some_iff.mp h
  have hs : list = list.take i ++ list[i] :: list.drop (i + 1) := by simp
  conv => lhs; arg 1; rw [hs]
  rw [List.filter_append, List.filter_cons_of_pos hp, List.countP_eq_length_filter,
    List.getElem?_append_right (Nat.le_refl _), Nat.sub_self, List.getElem?_cons_zero]

-- All lines that are not blank have documents. The number in the label of a document is one more than the number of
-- documents in front, and that is the number of the line if there are no blank lines in front. An error on the
-- line is reported with the number of the line.
theorem ofText_labels (path text : String)
    (h : ∀ row ∈ lines text.toList, isFilled row → ∃ value, LineHolds row value) :
    ∃ found, Document.ofText true path text = .ok found ∧
      found.length = (lines text.toList).countP isFilled ∧
      ∀ i row, (lines text.toList)[i]? = some row → isFilled row →
        ∃ count value, count = ((lines text.toList).take i).countP isFilled ∧ LineHolds row value ∧
          found[count]? = some ⟨s!"{path}#{count + 1}", value⟩ ∧
          (count + 1 = i + 1 ↔ ∀ other ∈ (lines text.toList).take i, isFilled other) ∧
          ∀ other bad e, lines other.toList = (lines text.toList).set i bad → isFilled bad →
            loadText .value (String.ofList bad) = .error e → documents other = .error (.line (i + 1) e) := by
  obtain ⟨values, hl, hv⟩ := @exists_loadLines 1 _ h
  have hd : documents text = .ok values := hl
  refine ⟨_, by rw [Document.ofText, if_pos rfl, hd], ?_, fun i row hr hf => ?_⟩
  case refine_1 => rw [List.length_map, List.length_zipIdx, ← hv.length_eq, List.countP_eq_length_filter]
  case refine_2 =>
    obtain ⟨hi, -⟩ := List.getElem?_eq_some_iff.mp hr
    obtain ⟨hc, rfl⟩ := List.getElem?_eq_some_iff.mp (getElem?_filter_countP hr hf)
    have hn := hv.length_eq ▸ hc
    refine ⟨_, values.get ⟨_, hn⟩, rfl, hv.get hc hn, ?_, ?_, fun other bad e ho hb he => ?_⟩
    · rw [List.getElem?_map, List.getElem?_zipIdx, List.getElem?_eq_getElem hn, Nat.add_comm]
      rfl
    · have ht : ((lines text.toList).take i).length = i := List.length_take_of_le (Nat.le_of_lt hi)
      rw [Nat.add_right_cancel_iff, ← List.countP_eq_length, ht]
    · rw [documents, ho, loadLines_set h hi hb he, Nat.add_comm]

-- The second document stands on the fourth line, behind two blank ones.
theorem ofText_labels_blank :
    ∃ found, Document.ofText true "n" "true\r\n\u2003\r\n\n[1]" = .ok found ∧
      found[1]? = some ⟨"n#2", .array [.ofNat 1]⟩ ∧
      documents "true\n\u2003\n\n[" = .error (.line 4 (.json ⟨.endInList, ⟨1, 1⟩, []⟩)) := by
  have hl : lines "true\r\n\u2003\r\n\n[1]".toList =
      ["true".toList, ['\u2003'], [], ['[', '1', ']']] := by decide
  have ht : LineHolds "true".toList (.bool true) := by
    unfold LineHolds
    cbv
  have ha : LineHolds ['[', '1', ']'] (.array [.ofNat 1]) := by
    unfold LineHolds
    cbv
  have h : ∀ row ∈ lines "true\r\n\u2003\r\n\n[1]".toList, isFilled row → ∃ value, LineHolds row value := by
    rw [hl]
    simp only [List.forall_mem_cons]
    refine ⟨fun _ => ⟨_, ht⟩, fun hf => ?_, fun hf => ?_, fun _ => ⟨_, ha⟩, by simp⟩
    · cases hf
    · cases hf
  obtain ⟨found, hd, -, hr⟩ := ofText_labels "n" "true\r\n\u2003\r\n\n[1]" h
  obtain ⟨count, value, hc, hv, hg, -, he⟩ := hr 3 ['[', '1', ']'] (by rw [hl]; rfl) rfl
  cases hc.trans (by rw [hl]; rfl : _ = 1)
  cases Except.ok.inj (hv.symm.trans ha)
  refine ⟨found, hd, hg, he _ ['['] _ (by rw [hl]; decide) rfl ?_⟩
  cbv

-- A blank line in front, and the document on the third line is labelled as the second.
theorem not_label_line :
    ¬∀ (path text : String) (found : List Document), Document.ofText true path text = .ok found →
      ∀ i row, (lines text.toList)[i]? = some row → isFilled row →
        ∃ document ∈ found, document.label = s!"{path}#{i + 1}" ∧ LineHolds row document.value := by
  intro h
  have hd : Document.ofText true "n" "1\n\n2" = .ok [⟨"n#1", .ofNat 1⟩, ⟨"n#2", .ofNat 2⟩] := by cbv
  obtain ⟨document, hm, hl, -⟩ := h _ _ _ hd 2 ['2'] (by decide) rfl
  have hn : ∀ document ∈ [Document.mk "n#1" (.ofNat 1), ⟨"n#2", .ofNat 2⟩], document.label ≠ "n#3" := by simp
  exact hn document hm hl

end JsonShape
