import Mathlib
import JsonShape.CommandLine.Run
import JsonShape.Proofs.Model.Resolution
import JsonShape.Proofs.Validation.Messages
import JsonShape.Proofs.Validation.Reports

namespace JsonShape

namespace Verdict

variable {errors : List ValidationError}

theorem of_none_eq_valid_iff : Verdict.of none errors = .ok .valid ↔ errors = [] := by
  cases errors <;> simp [Verdict.of]

theorem of_message_eq_empty_iff (h : ∀ e ∈ errors, e.message ≠ "") :
    Verdict.of (some .message) errors = .ok (.message "") ↔ errors = [] := by
  simp only [Verdict.of, Except.ok.injEq, Verdict.message.injEq, Report.text_eq_empty_iff h]

theorem of_map_eq_empty_iff : Verdict.of (some .map) errors = .ok (.map []) ↔ errors = [] := by
  simp only [Verdict.of, Except.ok.injEq, Verdict.map.injEq, Report.byPath_eq_nil_iff]

end Verdict

namespace Model

variable {m : Model} {options : ValidateOptions} {value : Json}

theorem message_ne_empty_of_mem_errors : ∀ e ∈ m.errors options value, e.message ≠ "" :=
  fun e he => (Validation.check_isViolation m.node e he).message_ne_empty

theorem validate_eq_ok_iff : m.validate value = .ok () ↔ m.errors m.validateOptions value = [] := by
  rw [validate]
  cases m.errors m.validateOptions value <;> simp [Verdict.of, Except.map]

end Model

-- What is printed for a document with these errors. Lines of text below the label say what they are.
inductive Document.Entry (document : Document) : List ValidationError → String → Prop
  | success : Entry document [] s!"✅ {document.label}\n"
  | failure (below : List String) : errors ≠ [] →
      Entry document errors (s!"❌ {document.label}\n" ++ String.join (below.map fun line => s!"   {line}\n"))

namespace ValidateCommand

variable {m : Model} {options : ValidateOptions} {document : Document} {documents : List Document}

-- The flag for undeclared keys counts as long as no file of options is given, the form always.
theorem loadOptions_eq_ok {command : ValidateCommand} {read : ReadFile}
    (h : command.loadOptions read = .ok options) :
    options.returnAs = some command.returnAs ∧
      (command.options = none → options.ignoreExtraneousKeys = command.ignoreExtraneousKeys) ∧
      ∀ path, command.options = some path → ∃ given, loadFile ValidateOptions.format read path = .ok given ∧
        options.ignoreExtraneousKeys = given.ignoreExtraneousKeys := by
  rw [loadOptions] at h
  cases ho : command.options with
  | none =>
    simp only [ho, Except.ok.injEq] at h
    subst h
    exact ⟨rfl, fun _ => rfl, by simp⟩
  | some path =>
    simp only [ho] at h
    cases hg : loadFile ValidateOptions.format read path with
    | error fault =>
      rw [hg] at h
      cases h
    | ok given =>
      simp only [hg, Except.ok.injEq] at h
      subst h
      refine ⟨rfl, by simp, fun other he => ?_⟩
      cases he
      exact ⟨given, hg, rfl⟩

theorem check_eq_none_iff : check m options document = none ↔ m.errors options document.value = [] := by
  rw [check, Model.validateWith]
  cases options.returnAs with
  | none =>
    cases m.errors options document.value <;> simp [Verdict.of, Verdict.errors?]
  | some form =>
    cases form with
    | message =>
      simp [Verdict.of, Verdict.errors?, Report.text_eq_empty_iff Model.message_ne_empty_of_mem_errors]
    | map => simp [Verdict.of, Verdict.errors?, Report.byPath_eq_nil_iff]

theorem entry_report : document.Entry (m.errors options document.value)
    (document.report (check m options document)) := by
  cases hc : check m options document with
  | none =>
    rw [check_eq_none_iff.mp hc]
    exact .success
  | some text =>
    have he : m.errors options document.value ≠ [] := fun he => by simp [check_eq_none_iff.mpr he] at hc
    have hr := @Document.Entry.failure document _ ((lines text.toList).map String.ofList) he
    rwa [List.map_map] at hr

theorem exitCode_reportAll : (reportAll m options documents).exitCode = 0 ↔
    ∀ document ∈ documents, m.errors options document.value = [] := by
  have hs : (documents.all fun document => (check m options document).isNone) ↔
      ∀ document ∈ documents, m.errors options document.value = [] := by
    simp only [List.all_eq_true, Option.isNone_iff_eq_none, check_eq_none_iff]
  rw [← hs, reportAll, CommandResult.exitCode]
  split <;> simp_all

-- One entry for each document, in their order.
theorem exists_entries_reportAll :
    ∃ entries success, reportAll m options documents = .print (String.join entries) success ∧
      List.Forall₂ (fun (document : Document) => document.Entry (m.errors options document.value))
        documents entries := by
  refine ⟨_, _, rfl, ?_⟩
  rw [List.forall₂_map_right_iff, List.forall₂_same]
  exact fun document _ => entry_report

end ValidateCommand

-- Whatever the form, a validation without errors is told from one with errors. The command takes its options from its
-- flags and its file of options. It fails if and only if a document has errors, and prints which ones have.
theorem verdicts_agree :
    (∀ (m : Model) (options : ValidateOptions) (value : Json),
      (m.errors options value = [] ↔ m.validateWith { options with returnAs := none } value = .ok .valid) ∧
      (m.errors options value = [] ↔
        m.validateWith { options with returnAs := some .message } value = .ok (.message "")) ∧
      (m.errors options value = [] ↔
        m.validateWith { options with returnAs := some .map } value = .ok (.map [])) ∧
      (options.ignoreExtraneousKeys = m.validateOptions.ignoreExtraneousKeys →
        (m.errors options value = [] ↔ m.validate value = .ok ()))) ∧
    ∀ (command : ValidateCommand) (files : Files) (m : Model) (options : ValidateOptions) (paths : List String)
        (documents : List Document),
      command.model.load files.read = .ok m → command.loadOptions files.read = .ok options →
      expandInputs files command.inputs = .ok paths →
      Document.load command.byLine files.read paths = .ok documents →
      options.returnAs = some command.returnAs ∧
      (command.options = none → options.ignoreExtraneousKeys = command.ignoreExtraneousKeys) ∧
      (∀ path, command.options = some path →
        ∃ given, loadFile ValidateOptions.format files.read path = .ok given ∧
          options.ignoreExtraneousKeys = given.ignoreExtraneousKeys) ∧
      ∃ entries success, command.run files = .ok (.print (String.join entries) success) ∧
        List.Forall₂ (fun (document : Document) => document.Entry (m.errors options document.value))
          documents entries ∧
        ((CommandResult.print (String.join entries) success).exitCode = 0 ↔
          ∀ document ∈ documents, m.errors options document.value = []) := by
  refine ⟨fun m options value => ⟨?_, ?_, ?_, fun hi => ?_⟩, ?command⟩
  · exact Verdict.of_none_eq_valid_iff.symm
  · exact (Verdict.of_message_eq_empty_iff Model.message_ne_empty_of_mem_errors).symm
  · exact Verdict.of_map_eq_empty_iff.symm
  · rw [Model.validate_eq_ok_iff, Model.errors, Model.errors, validate, validate, hi]
  case command =>
    intro command files m options paths documents hm ho hp hd
    obtain ⟨hf, hg, hl⟩ := ValidateCommand.loadOptions_eq_ok ho
    obtain ⟨entries, success, hr, he⟩ := @ValidateCommand.exists_entries_reportAll m options documents
    refine ⟨hf, hg, hl, entries, success, ?_, he, hr ▸ ValidateCommand.exitCode_reportAll⟩
    simp only [ValidateCommand.run, hm, ho, hp, hd, Except.map, hr]

-- The second one of two documents is not a truth value.
theorem verdicts_agree_truth :
    ∃ (command : ValidateCommand) (files : Files) (m : Model) (options : ValidateOptions),
      command.returnAs = .map ∧ command.model.load files.read = .ok m ∧
      command.loadOptions files.read = .ok options ∧ expandInputs files command.inputs = .ok ["a", "b"] ∧
      Document.load command.byLine files.read ["a", "b"] = .ok [⟨"a", .bool true⟩, ⟨"b", .null⟩] ∧
      m.validateWith { returnAs := some .map } (.bool true) = .ok (.map []) ∧
      ∃ entries success, command.run files = .ok (.print (String.join entries) success) ∧
        entries.length = 2 ∧ entries.head? = some "✅ a\n" ∧
        (CommandResult.print (String.join entries) success).exitCode ≠ 0 := by
  let command : ValidateCommand :=
    { model := { definition := .given (.string "boolean"), typespace := none }
      inputs := ["a", "b"]
      byLine := false
      ignoreExtraneousKeys := false
      options := none
      returnAs := .map }
  let files : Files :=
    { read := fun path => if path = "a" then .ok "true" else .ok "null"
      expand := fun _ => .ok [] }
  let m : Model := ⟨.empty, .primitive .boolean, {}, {}⟩
  let options : ValidateOptions := { returnAs := some .map }
  have hm : command.model.load files.read = .ok m := by
    have hs : Typespace.empty.define {} (.string "boolean") = .ok m :=
      Typespace.define_eq_ok_iff.mpr ⟨rfl, by cbv, rfl, rfl⟩
    simp only [command, ModelSource.load, ModelSource.loadTypespace, ValueArgument.load, hs]
  have hd : Document.load command.byLine files.read ["a", "b"] = .ok [⟨"a", .bool true⟩, ⟨"b", .null⟩] := by
    cbv
  have ht : m.errors options (.bool true) = [] := Validation.accepts_primitive.mpr rfl
  have hn : m.errors options .null ≠ [] := fun h => by cases Validation.accepts_primitive.mp h
  obtain ⟨hv, hc⟩ := verdicts_agree
  have hi : expandInputs files command.inputs = .ok ["a", "b"] := by cbv
  obtain ⟨-, -, -, entries, success, hr, he, hx⟩ := hc command files m options ["a", "b"] _ hm rfl hi hd
  refine ⟨command, files, m, options, rfl, hm, rfl, hi, hd, (hv m options _).right.right.left.mp ht, entries,
    success, hr, he.length_eq.symm, ?first, ?code⟩
  case first =>
    cases he with
    | cons hf _ =>
      rw [ht] at hf
      cases hf with
      | success      => rfl
      | failure _ hf => exact absurd rfl hf
  case code => exact fun h => hn (hx.mp h ⟨"b", .null⟩ (.tail _ (.head _)))

end JsonShape
