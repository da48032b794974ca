import HackVM.Proofs.Counts

/-!
# Every Line Accounted For

What becomes of each line of a program, told without its code.

A program that is compiled has one block for each line that holds something, in
the order of the lines, behind the block of the start if there is one. A line
can fail in one way only, which is that it cannot be read, and the block then
carries the cause. Lowering has causes of its own to refuse a command, but none
of them applies to a command that was read. So the blocks of a program without
their code can be told from its text, by reading each line on its own.

The log tells the same story a second time. Its errors are those of the failed
blocks, one for each, and whether it has any is kept as a count.

## Main definitions

* `causeOf?`: The cause for which there is no result.
* `Account`: A block without its code.
* `Block.account`, `SourceLine.account`: The account of a block and of a line.
* `programAccounts`: What the blocks of a program should be.
* `Block.error?`: The message about a failed block.

## Theorems

* `Compiles.account`, `Trace.accounts`: A block is accounted for by its entry.
* `Compiles.errors`, `Trace.errors`: Failed blocks have messages, and no others.
* `lines_accounted`: Every line has one block, and every failure one message.
-/

namespace HackVM

/-- The cause for which there is no result. -/
def causeOf? {α : Type} : Except CommandError α → Option CommandError
  | .ok _ => none
  | .error cause => some cause

/-- A block without its code: where it stands, what was written there, and the
    cause if it failed. -/
structure Account where
  location : Location
  source : String
  cause? : Option CommandError
  deriving DecidableEq

/-- A block without its code. -/
def Block.account (block : Block) : Account :=
  { location := block.location, source := block.source, cause? := causeOf? block.body }

/-- What should become of a line: it fails if it cannot be read. -/
def SourceLine.account (unit : String) (line : SourceLine) : Account :=
  { location := { unit := unit, line := line.line }
    source := line.text
    cause? := causeOf? (Command.parse line.text) }

/-- The start of a program, which does not fail. -/
def Account.start (unit : String) : Account :=
  { location := { unit := unit, line := 0 }, source := "bootstrap", cause? := none }

/-- What the blocks of a program should be: its start, if it is given one and has
    a unit, and then the lines of its units. -/
def programAccounts (options : Options) (units : List (String × String)) : List Account :=
  (if options.bootstrap then units.head?.toList.map fun unit => Account.start unit.1 else []) ++
    units.flatMap fun unit => (sourceLines unit.2).map (SourceLine.account unit.1)

/-- The message about a block, if it failed. -/
def Block.error? (block : Block) : Option Diagnostic :=
  (causeOf? block.body).map fun cause =>
    { severity := .error, location := block.location, message := cause.message }

/-- What should become of an entry. -/
def Entry.account : Entry → Account
  | .start unit => .start unit
  | .line l =>
      { location := l.location, source := l.parsed.text, cause? := causeOf? l.parsed.result }

theorem Block.isError_eq (block : Block) : block.isError = block.error?.isSome := by
  unfold isError error?
  cases block.body with
  | ok code => rfl
  | error cause => rfl

section Steps

variable {options : Options} {names names' : Names} {entry : Entry} {block : Block}
  {messages : List Diagnostic}

/-- The block of a step is accounted for by its entry. -/
theorem Compiles.account (h : Compiles options names entry block messages names') :
    block.account = entry.account := by
  cases h with
  | start hmint => rfl
  | refused hresult =>
      rw [Entry.account, hresult]
      rfl
  | lowered hresult hformed hlower =>
      -- The step has code, so there is no case in which lowering gives up.
      rw [Entry.account, hresult]
      rfl

/-- The errors of a step are that of its block, if it failed. -/
theorem Compiles.errors (h : Compiles options names entry block messages names') :
    (messages.filter fun d => d.severity = .error) = block.error?.toList := by
  cases h with
  | start hmint => rfl
  | refused hresult => rfl
  | lowered hresult hformed hlower =>
      -- All that a line with code adds to the log are warnings.
      refine List.filter_eq_nil_iff.mpr ?_
      intro d hd
      rcases List.mem_map.mp hd with ⟨message, -, rfl⟩
      simp [Diagnostic.ofWarning]

end Steps

section Runs

variable {options : Options} {names names' : Names} {entries : List Entry} {blocks : List Block}
  {messages : List Diagnostic}

/-- The blocks of a trace are accounted for by its entries, one by one. -/
theorem Trace.accounts (h : Trace options names entries blocks messages names') :
    blocks.map Block.account = entries.map Entry.account := by
  induction h with
  | nil names => rfl
  | cons hstep _ ih => rw [List.map_cons, List.map_cons, hstep.account, ih]

/-- The errors of a trace are those of its blocks that failed, in order. -/
theorem Trace.errors (h : Trace options names entries blocks messages names') :
    (messages.filter fun d => d.severity = .error) = blocks.filterMap Block.error? := by
  induction h with
  | nil names => rfl
  | cons hstep hrest ih =>
      rename_i entry entries block blocks messages messages'
      rw [List.filter_append, hstep.errors, ih, List.filterMap_cons]
      cases block.error? with
      | none => rfl
      | some d => rfl

end Runs

/-- The function that encloses a line does not matter to its account. -/
theorem map_account_placeLines (unit : String) (function? : Option String)
    (lines : List SourceLine) :
    (placeLines unit function? (lines.map SourceLine.parse)).map (fun l => (Entry.line l).account) =
      lines.map (SourceLine.account unit) := by
  induction lines generalizing function? with
  | nil => rfl
  | cons line lines ih =>
      rw [List.map_cons, placeLines, List.map_cons, List.map_cons, ih]
      rfl

/-- The entries of a program are accounted for by its text. -/
theorem map_account_programEntries (options : Options) (units : List (String × String)) :
    (programEntries options units).map Entry.account = programAccounts options units := by
  have hlines : ((programLines units).map Entry.line).map Entry.account =
      units.flatMap fun unit => (sourceLines unit.2).map (SourceLine.account unit.1) := by
    rw [List.map_map, programLines, List.map_flatMap]
    refine List.flatMap_congr ?_
    intro unit _
    exact map_account_placeLines unit.1 none (sourceLines unit.2)
  rw [programEntries, List.map_append, hlines, programAccounts, startEntries]
  split
  · rw [List.map_map]
    rfl
  · rfl

/-- Every line of a program has one block, in order and behind the start, and its
    block fails for the cause for which the line cannot be read. The errors in
    the log are those of the failed blocks, and the log has errors if there are
    failed blocks. -/
theorem lines_accounted {options : Options} {units : List (String × String)}
    {compilation : Compilation} (h : compileProgram options units = .ok compilation) :
    compilation.blocks.toList.map Block.account = programAccounts options units ∧
      (compilation.log.entries.toList.filter fun d => d.severity = .error) =
        compilation.blocks.toList.filterMap Block.error? ∧
      (compilation.log.hasErrors = true ↔
        ∃ block ∈ compilation.blocks.toList, block.isError = true) := by
  rcases (trace_of_compileProgram h).1 with ⟨names, htrace⟩
  have herrors := htrace.errors
  refine ⟨htrace.accounts.trans (map_account_programEntries options units), herrors, ?_⟩
  rw [Log.hasErrors_iff (counted_of_compileProgram h)]
  -- Both sides say that the list of errors is not empty.
  constructor
  · rintro ⟨d, hd, hseverity⟩
    have hmem : d ∈ compilation.log.entries.toList.filter fun d => d.severity = .error :=
      List.mem_filter.mpr ⟨hd, decide_eq_true hseverity⟩
    rw [herrors] at hmem
    rcases List.mem_filterMap.mp hmem with ⟨block, hblock, hsome⟩
    refine ⟨block, hblock, ?_⟩
    rw [Block.isError_eq, hsome]
    rfl
  · rintro ⟨block, hblock, hfailed⟩
    rw [Block.isError_eq] at hfailed
    rcases Option.isSome_iff_exists.mp hfailed with ⟨d, hd⟩
    have hmem := List.mem_filterMap.mpr ⟨block, hblock, hd⟩
    rw [← herrors] at hmem
    rcases List.mem_filter.mp hmem with ⟨hentry, hseverity⟩
    exact ⟨d, hentry, of_decide_eq_true hseverity⟩

/-- Lines that fail in several ways, between lines that are warned about or hold
    nothing, in units whose names are no names. -/
def faultyUnits : List (String × String) :=
  [("", "// nothing\nlabel A\r\npush nowhere 1\n\nlabel A\n  pop constant 3 // twice\n"),
   ("two words", "\n\nreturn\nbootstrap\ncall f 40000")]

/-- The program is given a start. -/
def faultyOptions : Options :=
  { echoSource := false, scopeLabels := false, bootstrap := true }

/-- What the log says about them. -/
def faultyMessages : List String :=
  ["error at :3: unsupported push segment 'nowhere'",
    "error at :6: cannot pop into the constant segment",
    "error at two words:4: unknown command 'bootstrap'",
    "error at two words:5: call index 40000 is out of range (maximum 32762)"]

theorem lines_accounted_faultyUnits :
    ∃ compilation, compileProgram faultyOptions faultyUnits = .ok compilation ∧
      compilation.blocks.toList.map Block.account = programAccounts faultyOptions faultyUnits ∧
      (compilation.blocks.toList.filterMap Block.error?).map Diagnostic.render =
        faultyMessages ∧
      compilation.log.entries.size = 6 ∧ compilation.log.hasErrors = true := by
  have hlog : (compileProgram faultyOptions faultyUnits).toOption.any (fun compilation =>
      (compilation.log.entries.toList.filter fun d => d.severity = .error).map
          Diagnostic.render = faultyMessages ∧
        compilation.log.entries.size = 6 ∧
        ∃ block ∈ compilation.blocks.toList, block.isError = true) = true := by
    decide +kernel
  rcases exists_ok_of_any hlog with ⟨compilation, hcompile, hfacts⟩
  rcases of_decide_eq_true hfacts with ⟨hmessages, hsize, hfailed⟩
  rcases lines_accounted hcompile with ⟨haccounts, herrors, hhas⟩
  rw [herrors] at hmessages
  exact ⟨compilation, hcompile, haccounts, hmessages, hsize, hhas.mpr hfailed⟩

end HackVM
