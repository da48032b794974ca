import HackVM.Proofs.RoundTrip
import HackVM.Proofs.Warnings

/-!
# Label Clashes

What a program without warnings can still clash with.

The assembler refuses a label that is bound already. Two kinds of names are
bound when it comes to a label: the labels in front of it and the names of the
machine. The label checks of the compiler cover the first kind completely, so
that without a warning no label is declared twice, but they know nothing of the
second. A line that declares a name of the machine is compiled without a word,
and the listing cannot be assembled.

## Theorems

* `bound_of_duplicateLabel`: A refused label was bound before.
* `Trace.mem_declaredLabels_iff`: A label that is not generated comes from a
  line.
* `Trace.nodup_declaredLabels`: Without warnings no label is declared twice.
* `duplicateLabel_of_quiet`: Without warnings, labels clash with the machine
  only.
* `quiet_label_refused`: They do clash with the machine.
-/

namespace HackVM

section Assembling

variable {text label : String} {line : Nat}

/-- A label that is refused was bound before: it is a name of the machine, or a
    statement in front of it declares it, too. -/
theorem bound_of_duplicateLabel (h : assemble text = .error (.duplicateLabel line label)) :
    ∃ before n after, statements text = before ++ n :: after ∧ n.statement = .label label ∧
      (isPredefined label = true ∨ label ∈ labelNames (before.map (·.statement))) := by
  rcases assemble_eq_error h with ⟨before, n, after, hsplit, ⟨s, hbefore, hfail⟩ | ⟨s, hfail⟩⟩
  · rcases Labelling.add_eq_error hfail with hoverflow | ⟨name, hn, hbound, herror⟩
    · cases hoverflow
    · cases herror
      refine ⟨before, n, after, hsplit, hn, ?_⟩
      -- The table at that point holds the machine's names and the labels before.
      rw [(labels_of_initial hbefore).2.2.2] at hbound
      rw [isPredefined_eq_isSome_lookup, ← isSome_labelPosition?]
      simpa using hbound
  · -- After the first pass there are no labels left to be refused.
    rcases Resolving.add_eq_error hfail with hoverflow | ⟨code, hunreadable⟩ | ⟨_, _, _, _, hlarge⟩
    · cases hoverflow
    · cases hunreadable
    · cases hlarge

end Assembling

section Declarations

variable {options : Options} {names names' : Names} {entries : List Entry} {blocks : List Block}
  {messages : List Diagnostic} {label : String}

/-- A label that is not generated is declared in the code if a line declares
    it. -/
theorem Trace.mem_declaredLabels_iff (h : Trace options names entries blocks messages names')
    (hlabel : isGenerated label = false) :
    label ∈ declaredLabels (blocks.flatMap Block.instructions) ↔
      ∃ entry ∈ entries, entry.declares? options = some label := by
  induction h with
  | nil names => simp [declaredLabels]
  | cons hstep _ ih =>
      rename_i entry entries block blocks messages messages'
      rcases hstep.declares with ⟨minted, hcode, hgives, -⟩
      have hminted : label ∉ minted := by
        intro hmem
        rw [hgives.generated label hmem] at hlabel
        cases hlabel
      rw [List.flatMap_cons, declaredLabels_append, List.mem_append, ih, hcode, List.mem_append,
        Option.mem_toList, List.exists_mem_cons_iff]
      simp only [hminted, or_false]

/-- A program that is not warned about declares no label twice. -/
theorem Trace.nodup_declaredLabels (h : Trace options .initial entries blocks messages names')
    (hquiet : ∀ d ∈ messages, d.severity ≠ .warning) :
    (declaredLabels (blocks.flatMap Block.instructions)).Nodup := by
  have hrecords : Names.initial.Records [] := by
    intro label
    simp [Names.initial]
  have hdistinct : Names.initial.Distinct [] := by
    refine ⟨List.nodup_nil, ?_⟩
    intro label hlabel
    cases hlabel
  exact (h.distinct hrecords hdistinct fun d hd hwarning => absurd hwarning (hquiet d hd)).nodup

end Declarations

/-- A program without warnings declares no label twice, so a label of it can be
    refused only as a name of the machine that a line declares. If a line does
    declare such a name, the program has no image. -/
theorem duplicateLabel_of_quiet {options : Options} {units : List (String × String)}
    {compilation : Compilation} (hunits : ∀ unit ∈ units, isName unit.1 = true)
    (hcompile : compileProgram options units = .ok compilation)
    (hquiet : ∀ d ∈ compilation.log.entries.toList, d.severity ≠ .warning) :
    (∀ line label, assemble compilation.text = .error (.duplicateLabel line label) →
      isPredefined label = true ∧ ∃ l ∈ programLines units, l.declares? options = some label) ∧
    ((∃ l ∈ programLines units, ∃ label ∈ l.declares? options, isPredefined label = true) →
      ∀ image, assemble compilation.text ≠ .ok image) := by
  rcases (trace_of_compileProgram hcompile).1 with ⟨names, htrace⟩
  have hstatements := statements_text hunits hcompile
  -- The names of the machine among the labels are those that lines declare.
  have hdeclares : ∀ label, isPredefined label = true →
      (label ∈ declaredLabels compilation.instructions ↔
        ∃ l ∈ programLines units, l.declares? options = some label) := by
    intro label hlabel
    rw [Compilation.instructions,
      htrace.mem_declaredLabels_iff (isGenerated_of_isPredefined hlabel)]
    constructor
    · rintro ⟨entry, hentry, hsome⟩
      cases entry with
      | start unit => cases hsome
      | line l => exact ⟨l, line_mem_programEntries hentry, hsome⟩
    · rintro ⟨l, hl, hsome⟩
      exact ⟨.line l, mem_programEntries_of_line hl, hsome⟩
  constructor
  · intro line label hfail
    rcases bound_of_duplicateLabel hfail with ⟨before, n, after, hsplit, hn, hbound⟩
    have hlabels : declaredLabels compilation.instructions =
        labelNames (before.map (·.statement)) ++ label :: labelNames (after.map (·.statement)) := by
      rw [← labelNames_statements, ← hstatements, hsplit, List.map_append, List.map_cons, hn]
      exact List.filterMap_append
    have hnot : label ∉ labelNames (before.map (·.statement)) := by
      have hnodup : (declaredLabels compilation.instructions).Nodup :=
        htrace.nodup_declaredLabels hquiet
      rw [hlabels] at hnodup
      exact fun hmem => (List.nodup_append.mp hnodup).2.2 label hmem label List.mem_cons_self rfl
    have hmachine := hbound.resolve_right hnot
    refine ⟨hmachine, (hdeclares label hmachine).mp ?_⟩
    rw [hlabels]
    exact List.mem_append_right _ List.mem_cons_self
  · rintro ⟨l, hl, label, hlabel, hmachine⟩ image hassemble
    have hrealizes := realizes_of_assemble hassemble
    rw [hstatements] at hrealizes
    have hmem := (hdeclares label hmachine).mpr ⟨l, hl, hlabel⟩
    have hnone := hrealizes.new label (by rwa [labelNames_statements])
    rw [isPredefined_eq_isSome_lookup, hnone] at hmachine
    cases hmachine

/-- Names of the machine everywhere but where a label is declared: a label in a
    function is qualified, and names that only contain one are others. -/
def machineUnits : List (String × String) :=
  [("SP", "goto R1\nfunction SP.R0 2\nlabel SP\neq\nlabel R16\nif-goto SP\ncall SP.R0 0\nreturn"),
   ("R0", "label R01\npush static 0\ngoto KBD")]

/-- Labels are kept per function. -/
def machineOptions : Options :=
  { echoSource := true, scopeLabels := true, bootstrap := false }

theorem duplicateLabel_of_quiet_machineUnits :
    (∀ unit ∈ machineUnits, isName unit.1 = true) ∧
    ∃ compilation, compileProgram machineOptions machineUnits = .ok compilation ∧
      (∀ d ∈ compilation.log.entries.toList, d.severity ≠ .warning) ∧
      ∀ line label, assemble compilation.text ≠ .error (.duplicateLabel line label) := by
  have hunits : ∀ unit ∈ machineUnits, isName unit.1 = true := by decide
  have hlog : (compileProgram machineOptions machineUnits).toOption.any (fun compilation =>
      ∀ d ∈ compilation.log.entries.toList, d.severity ≠ .warning) = true := by decide +kernel
  have hlabels : ∀ l ∈ programLines machineUnits, ∀ label ∈ l.declares? machineOptions,
      isPredefined label = false := by decide +kernel
  refine ⟨hunits, ?_⟩
  rcases exists_ok_of_any hlog with ⟨compilation, hcompile, hpassed⟩
  have hquiet := of_decide_eq_true hpassed
  refine ⟨compilation, hcompile, hquiet, fun line label hfail => ?_⟩
  rcases (duplicateLabel_of_quiet hunits hcompile hquiet).1 line label hfail with
    ⟨hmachine, l, hl, hlabel⟩
  rw [hlabels l hl label hlabel] at hmachine
  cases hmachine

/-- A line that declares a name of the machine is neither refused nor warned
    about, and yet the assembler refuses the label. -/
theorem quiet_label_refused :
    isName "Main" = true ∧
    ∃ compilation, compileProgram .default [("Main", "label SP")] = .ok compilation ∧
      compilation.log = .empty ∧
      assemble compilation.text = .error (.duplicateLabel 2 "SP") := by
  have hfacts : (compileProgram .default [("Main", "label SP")]).toOption.any (fun compilation =>
      compilation.log = .empty ∧ (assemble compilation.text).map (fun _ => ()) =
        .error (.duplicateLabel 2 "SP")) = true := by decide +kernel
  refine ⟨by decide, ?_⟩
  rcases exists_ok_of_any hfacts with ⟨compilation, hcompile, hpassed⟩
  rcases of_decide_eq_true hpassed with ⟨hlog, hfail⟩
  exact ⟨compilation, hcompile, hlog, map_eq_error_iff.mp hfail⟩

end HackVM
