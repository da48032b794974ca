import HackVM.Proofs.Labels

/-!
# Warnings of a Program

Which lines of a program are warned about, and what no warning means.

A line that declares a label is warned about if the label has the shape of a
generated one, or if a block before it declares the same label already, whether
a user wrote it or lowering made it up. A return is warned about if it stands
outside of any function. Nothing else is warned about.

The order in which labels come does not matter. A label that a user declares
before lowering makes up the same one is caught by its shape, when it is
declared. So a program without a warning about a label declares no label twice.

## Main definitions

* `Entry.warning?`: The warning that an entry deserves, given the labels before
  it.
* `labelsBefore`: The labels of the blocks in front of a position.
* `Names.Records`: The labels that are recorded are those of a list.
* `Names.Distinct`: The labels so far are distinct and stay so.

## Theorems

* `Compiles.warnings`, `Trace.warnings`: The warnings of a step and of a trace.
* `Compiles.distinct`, `Trace.distinct`: Labels stay distinct.
* `warnings_exact`: The warnings of a program, and that labels without warnings
  are distinct.
-/

namespace HackVM

/-- What is wrong with declaring a label behind others. The noun says what kind of
    line declares it. -/
def declarationWarning? (noun label : String) (emitted : List String) : Option String :=
  if isGenerated label then
    some (noun ++ " '" ++ label ++ "' collides with a generated label name")
  else if label ∈ emitted then
    some (noun ++ " '" ++ label ++ "' declared more than once")
  else none

/-- What is wrong with a line, given the labels before it. -/
def Line.warning? (options : Options) (emitted : List String) (l : Line) : Option String :=
  match l.parsed.result with
  | .ok (.label name) => declarationWarning? "label" (l.symbol options name) emitted
  | .ok (.function name _) => declarationWarning? "function" name emitted
  | .ok .ret => if l.function? = none then some "return outside of any function" else none
  | _ => none

/-- The warning that an entry deserves, given the labels before it. -/
def Entry.warning? (options : Options) (emitted : List String) : Entry → Option Diagnostic
  | .start _ => none
  | .line l => (l.warning? options emitted).map fun message =>
      { severity := .warning, location := l.location, message := message }

/-- The labels of the blocks in front of a position. -/
def labelsBefore (blocks : List Block) (i : Nat) : List String :=
  declaredLabels ((blocks.take i).flatMap Block.instructions)

/-- The labels that are recorded are those of the list. -/
def Names.Records (names : Names) (emitted : List String) : Prop :=
  ∀ label, names.declared.contains label = true ↔ label ∈ emitted

/-- The labels so far are distinct, and the supply does not give out any of
    them again. -/
structure Names.Distinct (names : Names) (emitted : List String) : Prop where
  nodup : emitted.Nodup
  past : ∀ label ∈ emitted, isGenerated label = true → names.labels.IsPast label

section Steps

variable {options : Options} {names names' : Names} {entry : Entry} {block : Block}
  {messages : List Diagnostic} {emitted : List String}

theorem Names.Records.step (hrecords : names.Records emitted)
    (h : Compiles options names entry block messages names') :
    names'.Records (emitted ++ declaredLabels block.instructions) := by
  rcases h.declares with ⟨minted, -, -, hdeclared⟩
  intro label
  rw [hdeclared, hrecords, List.mem_append, or_comm]

/-- What is wrong with a command in its context is what is wrong with its line
    behind the labels that the context records. -/
theorem Line.warning?_eq {l : Line} {command : Command} (hresult : l.parsed.result = .ok command)
    (hrecords : names.Records emitted) :
    command.warning? options (l.context names) = l.warning? options emitted := by
  have hlabel : ∀ kind label, (l.context names).labelWarning? kind label =
      declarationWarning? kind.noun label emitted := by
    intro kind label
    unfold Context.labelWarning? declarationWarning?
    have hdeclared : (l.context names).isDeclared label = true ↔ label ∈ emitted := hrecords label
    simp only [hdeclared]
  have hsymbol : ∀ name, (l.context names).resolveLabel options.scopeLabels name =
      l.symbol options name := Line.resolveLabel_eq_symbol options rfl
  cases command with
  | label name =>
      simp only [Command.warning?, Command.declaration?, Line.warning?, hresult, hlabel, hsymbol,
        Declaration.noun]
  | function name locals =>
      simp only [Command.warning?, Command.declaration?, Line.warning?, hresult, hlabel,
        Declaration.noun]
  | ret =>
      simp [Command.warning?, Command.declaration?, Line.warning?, hresult, Line.context,
        Names.context]
  | _ => simp [Command.warning?, Command.declaration?, Line.warning?, hresult]

/-- The warnings of a step are those that its entry deserves. -/
theorem Compiles.warnings (h : Compiles options names entry block messages names')
    (hrecords : names.Records emitted) :
    (messages.filter fun d => d.severity = .warning) = (entry.warning? options emitted).toList := by
  cases h with
  | start hmint => rfl
  | refused hresult => simp [Entry.warning?, Line.warning?, hresult, Diagnostic.ofError]
  | lowered hresult hformed hlower =>
      rw [Line.warning?_eq hresult hrecords, Entry.warning?]
      cases Line.warning? options emitted _ with
      | none => rfl
      | some message => rfl

/-- A message about a declaration is not one about a return. -/
theorem ne_return_of_declarationWarning? {noun label message : String}
    (hnoun : noun = "label" ∨ noun = "function")
    (h : declarationWarning? noun label emitted = some message) :
    message ≠ "return outside of any function" := by
  -- The first letters differ.
  have hhead : message.toList.head? = noun.toList.head? := by
    unfold declarationWarning? at h
    split at h
    · cases h
      rcases hnoun with rfl | rfl <;> simp
    · split at h
      · cases h
        rcases hnoun with rfl | rfl <;> simp
      · cases h
  rintro rfl
  rcases hnoun with rfl | rfl <;> exact absurd hhead (by decide)

/-- A warning about an entry that declares a label is about that label. -/
theorem Entry.warning?_of_declares? {label : String} (h : entry.declares? options = some label) :
    ∃ noun, (noun = "label" ∨ noun = "function") ∧
      entry.warning? options emitted = (declarationWarning? noun label emitted).map fun message =>
        { severity := .warning, location := entry.location, message := message } := by
  cases entry with
  | start unit => cases h
  | line l =>
      simp only [Entry.declares?, Line.declares?] at h
      split at h
      · next name hresult =>
          cases h
          refine ⟨"label", Or.inl rfl, ?_⟩
          simp only [Entry.warning?, Line.warning?, hresult, Entry.location]
      · next name locals hresult =>
          cases h
          refine ⟨"function", Or.inr rfl, ?_⟩
          simp only [Entry.warning?, Line.warning?, hresult, Entry.location]
      · cases h

/-- A label that is declared without a warning about it is neither generated nor
    declared before. -/
theorem Entry.new_of_quiet {label : String} (h : entry.declares? options = some label)
    (hquiet : ∀ d ∈ entry.warning? options emitted, d.message = "return outside of any function") :
    isGenerated label = false ∧ label ∉ emitted := by
  rcases Entry.warning?_of_declares? h with ⟨noun, hnoun, hwarning⟩
  have hnone : declarationWarning? noun label emitted = none := by
    refine Option.eq_none_iff_forall_not_mem.mpr ?_
    intro message hmessage
    have hmem : { severity := .warning, location := entry.location, message := message } ∈
        entry.warning? options emitted := by
      rw [hwarning]
      exact Option.mem_map_of_mem _ hmessage
    exact ne_return_of_declarationWarning? hnoun hmessage (hquiet _ hmem)
  unfold declarationWarning? at hnone
  by_cases hgenerated : isGenerated label = true
  · rw [if_pos hgenerated] at hnone
    cases hnone
  · rw [if_neg hgenerated] at hnone
    by_cases hemitted : label ∈ emitted
    · rw [if_pos hemitted] at hnone
      cases hnone
    · exact ⟨eq_false_of_ne_true hgenerated, hemitted⟩

/-- Labels stay distinct along a step that is not warned about. -/
theorem Compiles.distinct (h : Compiles options names entry block messages names')
    (hdistinct : names.Distinct emitted)
    (hnew : ∀ label, entry.declares? options = some label →
      isGenerated label = false ∧ label ∉ emitted) :
    names'.Distinct (emitted ++ declaredLabels block.instructions) := by
  rcases h.declares with ⟨minted, hcode, hgives, -⟩
  -- A generated label among those so far would be past, but a minted one is not.
  have hfresh : ∀ label ∈ minted, label ∉ emitted := fun label hlabel hmem =>
    hgives.notPast label hlabel (hdistinct.past label hmem (hgives.generated label hlabel))
  have hblock : ∀ label ∈ declaredLabels block.instructions,
      entry.declares? options = some label ∨ label ∈ minted := by
    intro label hlabel
    rw [hcode] at hlabel
    rcases List.mem_append.mp hlabel with hdeclared | hminted
    · exact Or.inl (Option.mem_toList.mp hdeclared)
    · exact Or.inr hminted
  constructor
  · refine List.Nodup.append hdistinct.nodup ?_ ?_
    · rw [hcode]
      refine List.Nodup.append ?_ hgives.nodup ?_
      · cases entry.declares? options with
        | none => exact List.nodup_nil
        | some label => exact List.nodup_singleton label
      · intro label hdeclared hminted
        have hgenerated := hgives.generated label hminted
        rw [(hnew label (Option.mem_toList.mp hdeclared)).1] at hgenerated
        cases hgenerated
    · intro label hemitted hlabel
      rcases hblock label hlabel with hdeclared | hminted
      · exact (hnew label hdeclared).2 hemitted
      · exact hfresh label hminted hemitted
  · intro label hmem hgenerated
    rcases List.mem_append.mp hmem with hemitted | hlabel
    · exact hgives.mono label (hdistinct.past label hemitted hgenerated)
    · rcases hblock label hlabel with hdeclared | hminted
      · rw [(hnew label hdeclared).1] at hgenerated
        cases hgenerated
      · exact hgives.past label hminted

end Steps

section Runs

variable {options : Options} {names names' : Names} {entries : List Entry}
  {blocks before : List Block} {messages : List Diagnostic} {emitted : List String}

/-- The warnings of a trace are those that its entries deserve, each given the
    labels of the blocks before it. -/
theorem Trace.warnings (h : Trace options names entries blocks messages names')
    (hrecords : names.Records (declaredLabels (before.flatMap Block.instructions))) :
    (messages.filter fun d => d.severity = .warning) =
      (entries.zipIdx before.length).filterMap fun p =>
        p.1.warning? options (labelsBefore (before ++ blocks) p.2) := by
  induction h generalizing before with
  | nil names => rfl
  | cons hstep hrest ih =>
      rename_i names names' names'' entry entries block blocks messages messages'
      have hhere : labelsBefore (before ++ block :: blocks) before.length =
          declaredLabels (before.flatMap Block.instructions) := by
        rw [labelsBefore, List.take_left]
      -- The next entry has one block more before it, and its labels are recorded.
      have hrecords' : names'.Records
          (declaredLabels ((before ++ [block]).flatMap Block.instructions)) := by
        rw [List.flatMap_append, List.flatMap_singleton, declaredLabels_append]
        exact hrecords.step hstep
      have htail := ih hrecords'
      rw [List.length_append, List.append_assoc] at htail
      rw [List.filter_append, hstep.warnings hrecords, List.zipIdx_cons, List.filterMap_cons,
        htail]
      simp only [hhere]
      cases entry.warning? options (declaredLabels (before.flatMap Block.instructions)) with
      | none => rfl
      | some d => rfl

/-- Labels stay distinct along a trace that is not warned about. -/
theorem Trace.distinct (h : Trace options names entries blocks messages names')
    (hrecords : names.Records emitted) (hdistinct : names.Distinct emitted)
    (hquiet : ∀ d ∈ messages, d.severity = .warning →
      d.message = "return outside of any function") :
    names'.Distinct (emitted ++ declaredLabels (blocks.flatMap Block.instructions)) := by
  induction h generalizing emitted with
  | nil names => simpa [declaredLabels] using hdistinct
  | cons hstep hrest ih =>
      rename_i entry entries block blocks messages messages'
      have hwarnings := hstep.warnings hrecords
      have hnew : ∀ label, entry.declares? options = some label →
          isGenerated label = false ∧ label ∉ emitted := by
        intro label hlabel
        refine Entry.new_of_quiet hlabel ?_
        intro d hd
        have hlisted := Option.mem_toList.mpr hd
        rw [← hwarnings] at hlisted
        rcases List.mem_filter.mp hlisted with ⟨hmem, hseverity⟩
        exact hquiet d (List.mem_append_left _ hmem) (of_decide_eq_true hseverity)
      have htail := ih (hrecords.step hstep) (hstep.distinct hdistinct hnew)
        fun d hd => hquiet d (List.mem_append_right _ hd)
      rwa [List.append_assoc, ← declaredLabels_append] at htail

end Runs

/-- A program has one block for each entry. It is warned about the lines that
    declare a label which is generated or declared by a block before, and about
    returns outside of any function, those that no function begins before in
    their unit. If no warning is about a label, then no label is declared
    twice. -/
theorem warnings_exact {options : Options} {units : List (String × String)}
    {compilation : Compilation} (h : compileProgram options units = .ok compilation) :
    compilation.blocks.toList.map Block.location =
        (programEntries options units).map Entry.location ∧
      (compilation.log.entries.toList.filter fun d => d.severity = .warning) =
        ((programEntries options units).zipIdx.filterMap fun p =>
          p.1.warning? options (labelsBefore compilation.blocks.toList p.2)) ∧
      (∀ unit ∈ units, ∀ j l, (unitLines unit)[j]? = some l →
        (l.function? = none ↔ ∀ parsed ∈ (parseLines unit.2).take j, parsed.begins? = none)) ∧
      ((∀ d ∈ compilation.log.entries.toList, d.severity = .warning →
          d.message = "return outside of any function") →
        (declaredLabels compilation.instructions).Nodup) := by
  rcases (trace_of_compileProgram h).1 with ⟨names, htrace⟩
  have hrecords : Names.initial.Records
      (declaredLabels (([] : List Block).flatMap Block.instructions)) := by
    intro label
    simp [Names.initial, declaredLabels]
  have hwarnings := htrace.warnings hrecords
  refine ⟨htrace.location_blocks, hwarnings, ?_, ?_⟩
  · intro unit _ j l hline
    rw [function?_eq_none_iff hline]
    exact and_iff_right rfl
  · intro hquiet
    have hdistinct : Names.initial.Distinct
        (declaredLabels (([] : List Block).flatMap Block.instructions)) := by
      refine ⟨List.nodup_nil, ?_⟩
      intro label hlabel
      cases hlabel
    exact (htrace.distinct hrecords hdistinct hquiet).nodup

/-- A return outside of any function, and labels that meet one another and the
    labels of a comparison and a call. -/
def clashUnits : List (String × String) :=
  [("Main", "return\nlabel Sum\neq\nlabel EQ_END_0\nlabel Sum"),
   ("Sum", "return\nfunction Sum 0\ncall Sum 0\nlabel Sum$ret.7\nreturn")]

/-- What is wrong with them, line after line. -/
def clashWarnings : List Diagnostic :=
  [⟨.warning, ⟨"Main", 1⟩, "return outside of any function"⟩,
    ⟨.warning, ⟨"Main", 4⟩, "label 'EQ_END_0' collides with a generated label name"⟩,
    ⟨.warning, ⟨"Main", 5⟩, "label 'Sum' declared more than once"⟩,
    ⟨.warning, ⟨"Sum", 1⟩, "return outside of any function"⟩,
    ⟨.warning, ⟨"Sum", 2⟩, "function 'Sum' declared more than once"⟩,
    ⟨.warning, ⟨"Sum", 4⟩, "label 'Sum$ret.7' collides with a generated label name"⟩]

/-- Labels that only look like those of a comparison and a call. -/
def plainUnits : List (String × String) :=
  [("Main", "return\nfunction Main.run 0\nlabel EQ_END\neq\nlabel $ret.0\ncall Main.run 0\nlt")]

theorem warnings_exact_clashUnits :
    (∃ compilation, compileProgram .default clashUnits = .ok compilation ∧
      (compilation.log.entries.toList.filter fun d => d.severity = .warning) = clashWarnings) ∧
    ∃ compilation, compileProgram .default plainUnits = .ok compilation ∧
      (declaredLabels compilation.instructions).Nodup := by
  -- The entries deserve these warnings, so they are the ones that are given.
  have hclash : (compileProgram .default clashUnits).toOption.any (fun compilation =>
      ((programEntries .default clashUnits).zipIdx.filterMap fun p =>
        p.1.warning? .default (labelsBefore compilation.blocks.toList p.2)) =
          clashWarnings) = true := by decide +kernel
  have hplain : (compileProgram .default plainUnits).toOption.any (fun compilation =>
      compilation.log.entries.toList.all fun d =>
        d.message = "return outside of any function") = true := by decide +kernel
  constructor
  · rcases exists_ok_of_any hclash with ⟨compilation, hcompile, hdeserved⟩
    exact ⟨compilation, hcompile,
      (warnings_exact hcompile).2.1.trans (of_decide_eq_true hdeserved)⟩
  · rcases exists_ok_of_any hplain with ⟨compilation, hcompile, hquiet⟩
    refine ⟨compilation, hcompile, (warnings_exact hcompile).2.2.2 ?_⟩
    intro d hd _
    exact of_decide_eq_true (List.all_eq_true.mp hquiet d hd)

end HackVM
