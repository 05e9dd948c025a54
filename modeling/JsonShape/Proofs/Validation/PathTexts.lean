import Mathlib
import JsonShape.Proofs.Model.Resolution
import JsonShape.Proofs.Number.Decimal
import JsonShape.Proofs.Validation.ErrorPaths
import JsonShape.Proofs.Validation.Reports

namespace JsonShape

open Validation

namespace Segment

theorem toList_text_index {i : Nat} : (index i).text.toList = decimalDigits i := by
  simp [text, decimalDigits]

theorem index_inj_of_text_eq {i j : Nat} (h : (index i).text = (index j).text) : i = j := by
  rw [← ofDecimalDigits_decimalDigits i, ← toList_text_index, h, toList_text_index, ofDecimalDigits_decimalDigits]

-- Does the text of a key hold a slash? The text of an index never does.
def HasSlash : Segment → Prop
  | key name => '/' ∈ name.toList
  | index _  => False

theorem hasSlash_iff {segment : Segment} : segment.HasSlash ↔ '/' ∈ segment.text.toList := by
  cases segment with
  | key name => rfl
  | index i  =>
    refine iff_of_false not_false fun hm => ?_
    rw [toList_text_index] at hm
    cases isDigit_of_mem_decimalDigits _ hm

end Segment

namespace Path

variable {path other : Path}

-- The slashes in the text of the path stand between its segments.
def NoSlash (path : Path) : Prop :=
  ∀ segment ∈ path, ¬segment.HasSlash

theorem NoSlash.splitOn_text (h : path.NoSlash) (hn : path ≠ []) :
    path.text.toList.splitOn '/' = path.map fun segment => segment.text.toList := by
  have hi : path.text.toList = ['/'].intercalate (path.map fun segment => segment.text.toList) := by
    rw [text, String.toList_intercalate, List.map_map]
    rfl
  rw [hi]
  refine List.splitOn_intercalate '/' (List.forall_mem_map.mpr fun segment hm => ?_) (by simpa using hn)
  exact mt Segment.hasSlash_iff.mpr (h segment hm)

theorem NoSlash.map_text_eq (h : path.NoSlash) (ho : other.NoSlash) (hp : path ≠ []) (hn : other ≠ [])
    (ht : path.text = other.text) : path.map Segment.text = other.map Segment.text := by
  have hs : path.text.toList.splitOn '/' = other.text.toList.splitOn '/' := by rw [ht]
  rw [h.splitOn_text hp, ho.splitOn_text hn] at hs
  refine List.map_injective_iff.mpr (fun _ _ => String.toList_injective) ?_
  rwa [List.map_map, List.map_map]

-- The root has the same text as the key without characters, and no other path has it.
theorem NoSlash.eq_of_text_eq_empty (h : path.NoSlash) (ht : path.text = "") : path = [] ∨ path = [.key ""] := by
  by_cases hn : path = []
  case pos => exact .inl hn
  case neg =>
    have hs := h.splitOn_text hn
    rw [ht, String.toList_empty, List.splitOn_nil] at hs
    obtain ⟨segment, rfl, he⟩ := List.map_eq_singleton_iff.mp hs.symm
    cases segment with
    | key name =>
      have hk : name = "" := String.toList_eq_nil_iff.mp he
      exact .inr (by rw [hk])
    | index i => exact absurd (Segment.toList_text_index.symm.trans he) decimalDigits_ne_nil

end Path

namespace Json

variable {value part : Json} {segment other : Segment} {rest path others : Path}

theorem at?_cons : value.at? (segment :: rest) = (value.at? [segment]).bind (·.at? rest) := by
  cases value <;> cases segment <;> simp [at?]

-- The parts of an object are under keys, and those of an array under indices.
theorem kind_of_at?_eq_some (h : value.at? (segment :: rest) = some part) :
    (∃ name entries, segment = .key name ∧ value = .object entries) ∨
      ∃ i items, segment = .index i ∧ value = .array items := by
  cases value <;> cases segment
  case object.key  => exact .inl ⟨_, _, rfl, rfl⟩
  case array.index => exact .inr ⟨_, _, rfl, rfl⟩
  all_goals cases h

namespace Locates

theorem kind (h : value.Locates (segment :: rest)) :
    (∃ name entries, segment = .key name ∧ value = .object entries) ∨
      ∃ i items, segment = .index i ∧ value = .array items := by
  rcases h with ⟨part, hp⟩ | ⟨front, key, entries, he, hf, -⟩
  case inl => exact kind_of_at?_eq_some hp
  case inr =>
    cases front with
    | nil =>
      cases he
      exact .inl ⟨key, entries, rfl, Option.some.inj (at?_nil.symm.trans hf)⟩
    | cons first front =>
      cases he
      exact kind_of_at?_eq_some hf

theorem tail (h : value.Locates (segment :: rest)) (hn : rest ≠ []) :
    ∃ part, value.at? [segment] = some part ∧ part.Locates rest := by
  rcases h with ⟨inner, hp⟩ | ⟨front, key, entries, he, hf, hk⟩
  case inl =>
    obtain ⟨part, hs, hp⟩ := Option.bind_eq_some_iff.mp (at?_cons.symm.trans hp)
    exact ⟨part, hs, .inl ⟨inner, hp⟩⟩
  case inr =>
    cases front with
    | nil =>
      cases he
      contradiction
    | cons first front =>
      cases he
      obtain ⟨part, hs, hp⟩ := Option.bind_eq_some_iff.mp (at?_cons.symm.trans hf)
      exact ⟨part, hs, .inr ⟨front, key, entries, rfl, hp, hk⟩⟩

theorem eq_of_text_eq (h : value.Locates (segment :: rest)) (ho : value.Locates (other :: others))
    (ht : segment.text = other.text) : segment = other := by
  rcases h.kind with ⟨name, entries, rfl, rfl⟩ | ⟨i, items, rfl, rfl⟩ <;>
    rcases ho.kind with ⟨_, _, rfl, hv⟩ | ⟨_, _, rfl, hv⟩ <;> cases hv
  case inl.inl => exact congrArg Segment.key ht
  case inr.inr => exact congrArg Segment.index (Segment.index_inj_of_text_eq ht)

-- A part is found by the texts of the segments, since its kind of segment goes with what holds it.
theorem eq_of_map_text_eq (h : value.Locates path) (ho : value.Locates others)
    (ht : path.map Segment.text = others.map Segment.text) : path = others := by
  induction path generalizing value others with
  | nil => exact (List.map_eq_nil_iff.mp ht.symm).symm
  | cons segment rest hi =>
    obtain ⟨other, others, rfl, hs, hr⟩ := List.map_eq_cons_iff.mp ht.symm
    obtain rfl := h.eq_of_text_eq ho hs.symm
    by_cases hn : rest = []
    case pos =>
      subst hn
      rw [List.map_eq_nil_iff.mp hr]
    case neg =>
      have hm : others ≠ [] := by
        rintro rfl
        exact hn (List.map_eq_nil_iff.mp hr.symm)
      obtain ⟨part, hp, h⟩ := h.tail hn
      obtain ⟨_, hq, ho⟩ := ho.tail hm
      cases hp.symm.trans hq
      rw [hi h ho hr.symm]

end Locates

end Json

-- The texts of the paths tell them apart: no key holds a slash, and there is not both the root and the key without
-- characters.
structure Unmistakable (paths : List Path) : Prop where
  noSlash : ∀ path ∈ paths, path.NoSlash
  noEmpty : [] ∈ paths → [.key ""] ∉ paths

theorem Unmistakable.text_inj {value : Json} {paths : List Path} (h : Unmistakable paths)
    (hl : ∀ path ∈ paths, value.Locates path) {path other : Path} (hp : path ∈ paths) (ho : other ∈ paths)
    (ht : path.text = other.text) : path = other := by
  have hs := h.noSlash path hp
  have hn := h.noSlash other ho
  by_cases he : path.text = ""
  case pos =>
    rcases hs.eq_of_text_eq_empty he with rfl | rfl <;> rcases hn.eq_of_text_eq_empty (ht ▸ he) with rfl | rfl
    case inl.inl | inr.inr => rfl
    case inl.inr => exact absurd ho (h.noEmpty hp)
    case inr.inl => exact absurd hp (h.noEmpty ho)
  case neg =>
    have hr : path ≠ [] := by rintro rfl; exact he rfl
    have hor : other ≠ [] := by rintro rfl; exact he ht
    exact (hl path hp).eq_of_map_text_eq (hl other ho) (hs.map_text_eq hn hr hor ht)

namespace Model

variable {m : Model} {options : ValidateOptions} {value : Json}

theorem Obtained.scattered (hm : m.Obtained) : Scattered value.Locates (m.errors options value) :=
  check_findings.scattered hm.parsed.left hm.wellFormed.membersDistinct

theorem validateWith_map (h : options.returnAs = some .map) :
    m.validateWith options value = .ok (.map (Report.byPath (m.errors options value))) := by
  rw [validateWith, h, Verdict.of]

-- No message is lost. The messages of errors whose paths have one text come in one entry.
theorem Obtained.report_byPath (hm : m.Obtained) (options : ValidateOptions) (h : options.returnAs = some .map)
    (value : Json) :
    ∃ report, m.validateWith options value = .ok (.map report) ∧
      report.names = ((m.errors options value).map fun e => e.path.text).eraseDups ∧
      (∀ e ∈ m.errors options value, report.lookup e.path.text =
        some ("\n".intercalate (Report.messagesAt (m.errors options value) e.path.text))) ∧
      (report = (m.errors options value).map (fun e => (e.path.text, e.message)) ↔
        ((m.errors options value).map fun e => e.path.text).Nodup) ∧
      (Unmistakable ((m.errors options value).map ValidationError.path) →
        report = (m.errors options value).map fun e => (e.path.text, e.message)) := by
  have hs : Scattered value.Locates (m.errors options value) := hm.scattered
  refine ⟨_, validateWith_map h, ?_⟩
  generalize m.errors options value = errors at hs ⊢
  refine ⟨Report.names_byPath, ?messages, Report.byPath_eq_map_iff, ?unmistakable⟩
  case messages =>
    intro e he
    rw [Report.lookup_byPath, if_neg (Report.messagesAt_ne_nil he)]
  case unmistakable =>
    intro hu
    have hn : ((errors.map ValidationError.path).map Path.text).Nodup :=
      hs.nodup.map_on fun path hp other ho => hu.text_inj (List.forall_mem_map.mpr hs.place) hp ho
    exact Report.byPath_eq_map_iff.mpr (Report.map_path_text.symm ▸ hn)

-- Two items of an array are refused.
theorem Obtained.report_byPath_items :
    ∃ m : Model, ∃ value report, m.Obtained ∧
      (m.errors { returnAs := some .map } value).map ValidationError.path =
        [[.key "a", .index 0], [.key "a", .index 2]] ∧
      m.validateWith { returnAs := some .map } value = .ok (.map report) ∧ report.names = ["a/0", "a/2"] ∧
      report = (m.errors { returnAs := some .map } value).map fun e => (e.path.text, e.message) := by
  let m : Model := ⟨.empty, .struct [("a", .list (.primitive .string))], {}, {}⟩
  let value : Json := .object [("a", .array [.null, .string "", .null])]
  have hs : Typespace.ofJson .null = .ok .empty := rfl
  have hd : Typespace.empty.define {} (.object [("a", .string "string[]")]) = .ok m :=
    Typespace.define_eq_ok_iff.mpr ⟨rfl, by cbv, rfl, rfl⟩
  have hp : (m.errors { returnAs := some .map } value).map ValidationError.path =
      [[.key "a", .index 0], [.key "a", .index 2]] := by
    simp [m, value, errors, JsonShape.validate, check, checkItems, checkMembers_eq_flatMap, checkMember, checkKeys,
      extraneousKeys, Members.names, Members.lookup_cons, Keyword.admits, Node.required, mismatch, Violation.error]
  have hu : Unmistakable [[.key "a", .index 0], [.key "a", .index 2]] := by
    constructor
    case noSlash => simp [Path.NoSlash, Segment.HasSlash]
    case noEmpty => simp
  obtain ⟨report, hr, hn, -, -, he⟩ := Obtained.report_byPath (.define hs hd) { returnAs := some .map } rfl value
  refine ⟨m, value, report, .define hs hd, hp, hr, ?_, he (hp ▸ hu)⟩
  rw [hn, Report.map_path_text, hp]
  decide

-- A key with a slash is taken for the way to a key below another one.
theorem not_report_byPath :
    ¬∀ (m : Model) (options : ValidateOptions) (value : Json) (report : Members String), m.Obtained →
      options.returnAs = some .map → m.validateWith options value = .ok (.map report) →
      report.length = (m.errors options value).length := by
  intro h
  let node : Node := .struct [("a/b", .primitive .number), ("a", .struct [("b", .primitive .number)])]
  let m : Model := ⟨.empty, node, {}, {}⟩
  let value : Json := .object [("a/b", .string "x"), ("a", .object [("b", .string "y")])]
  let options : ValidateOptions := { returnAs := some .map }
  have hs : Typespace.ofJson .null = .ok .empty := rfl
  have hd : Typespace.empty.define {}
      (.object [("a/b", .string "number"), ("a", .object [("b", .string "number")])]) = .ok m :=
    Typespace.define_eq_ok_iff.mpr ⟨rfl, by cbv, rfl, rfl⟩
  have hp : (m.errors options value).map ValidationError.path = [[.key "a/b"], [.key "a", .key "b"]] := by
    simp [m, node, value, errors, JsonShape.validate, check, checkMembers_eq_flatMap, checkMember, checkKeys,
      extraneousKeys, Members.names, Members.lookup_cons, Keyword.admits, Node.required, mismatch, Violation.error]
  have hn : (Report.byPath (m.errors options value)).names = ["a/b"] := by
    rw [Report.names_byPath, Report.map_path_text, hp]
    decide
  have hl := h m options value _ (.define hs hd) rfl (validateWith_map rfl)
  have hn := congrArg List.length hn
  have hp := congrArg List.length hp
  rw [Members.names, List.length_map] at hn
  rw [List.length_map, ← hl, hn] at hp
  cases hp

end Model

end JsonShape
