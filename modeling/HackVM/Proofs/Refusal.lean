import HackVM.Proofs.Trace

/-!
# Refused Lines

A line that cannot be read leaves nothing behind but its message.

A refused line becomes a block without code and an error in the log. Taking
such lines out of a text, while the lines around them keep their numbers, takes
those blocks and those errors out of what is compiled, and that is all: the
other blocks, the warnings and the context at the end stay as they were. The
label checks look at the context and change it, but only for a line that was
read, and a command that was read is never refused afterwards.

A line is taken out by blanking it. Its ending stays, whichever it is, so the
next line still begins where it did.

## Main definitions

* `Text.blankWhere`: The text with some of its lines blanked.
* `isRefused`: The line holds something that is no command.
* `blankRefused`: The text without its refused lines.
* `Compiling.accepted`: What is compiled, without refused lines.

## Theorems

* `Text.filterMap_lines_blankWhere`: Blanked lines are those that are passed
  over.
* `parseLines_blankRefused`: The lines that were read stay, with their numbers.
* `Compiling.accepted_of_line_error`, `Compiling.line_accepted`: A refused line
  changes nothing that is accepted, and any other line does not see it.
* `Compiling.foldlM_line_accepted`: The same for all lines of a unit.
* `compileUnit_blankRefused`: Refused lines do not affect the others.
-/

namespace HackVM

namespace Text

/-- The line ending that is dropped from a piece. -/
def ending (piece : List Char) : List Char :=
  piece.drop (chomp piece).length

/-- A piece of which only the ending is left if its line is to be blanked. -/
def blankPiece (p : List Char → Bool) (piece : List Char) : List Char :=
  if p (chomp piece) then ending piece else piece

/-- The text with the lines blanked that satisfy the test. -/
def blankWhere (p : List Char → Bool) (text : String) : String :=
  String.ofList ((pieces text.toList).flatMap (blankPiece p))

/-- A blanked piece is still one piece, and its line is empty. -/
theorem blankPiece_newLine (p : List Char → Bool) {line : List Char} (h : '\n' ∉ line) :
    ∃ line', '\n' ∉ line' ∧ blankPiece p (line ++ ['\n']) = line' ++ ['\n'] ∧
      chomp (line' ++ ['\n']) =
        if p (chomp (line ++ ['\n'])) then [] else chomp (line ++ ['\n']) := by
  by_cases hp : p (chomp (line ++ ['\n'])) = true
  · rw [blankPiece, if_pos hp, if_pos hp, ending]
    rcases chomp_newLine_cases line with hchomp | hchomp
    · refine ⟨[], List.not_mem_nil, ?_, rfl⟩
      rw [hchomp, List.drop_left]
      rfl
    · -- The ending has a carriage return, which stays in front of the line feed.
      refine ⟨['\r'], by decide, ?_, rfl⟩
      nth_rewrite 2 [hchomp]
      rw [List.append_assoc, List.drop_left]
  · rw [blankPiece, if_neg hp, if_neg hp]
    exact ⟨line, h, rfl, rfl⟩

/-- What is read from the lines of a text, where empty lines do not count, is
    after blanking what was read from the lines that were left alone. -/
theorem filterMap_lines_blankWhere {β : Type} (p : List Char → Bool)
    (f : List Char × Nat → Option β) (hf : ∀ number, f ([], number) = none) (text : String)
    (start : Nat) :
    ((lines (blankWhere p text)).zipIdx start).filterMap f =
      ((lines text).zipIdx start).filterMap fun q => if p q.1 then none else f q := by
  rw [lines, lines, blankWhere, String.toList_ofList]
  induction text.toList using newLine_induction generalizing start with
  | last line hline =>
      by_cases hnil : line = []
      · rw [hnil]
        rfl
      · -- Without a line feed behind it, a blanked line vanishes altogether.
        rw [pieces_of_not_mem hline hnil, List.flatMap_singleton, blankPiece,
          chomp_of_not_mem hline, ending, chomp_of_not_mem hline, List.drop_length]
        by_cases hp : p line = true
        · simp [hp, chomp_of_not_mem hline, pieces]
        · simp [hp, pieces_of_not_mem hline hnil, chomp_of_not_mem hline, List.filterMap_cons]
  | line line rest hline ih =>
      rcases blankPiece_newLine p hline with ⟨line', hline', hblank, hchomp⟩
      rw [pieces_append_newLine _ _ hline, List.flatMap_cons, hblank, List.append_assoc,
        List.singleton_append, pieces_append_newLine _ _ hline', List.map_cons, List.map_cons,
        List.zipIdx_cons, List.zipIdx_cons, List.filterMap_cons, List.filterMap_cons, hchomp,
        ih (start + 1)]
      by_cases hp : p (chomp (line ++ ['\n'])) = true
      · simp only [if_pos hp, hf]
      · simp only [if_neg hp]

end Text

/-- The line holds something, and it is no command. -/
def isRefused (line : List Char) : Bool :=
  !(codePart line).isEmpty && !(Command.parse (String.ofList (codePart line))).isOk

/-- The text with its refused lines blanked. -/
def blankRefused (text : String) : String :=
  Text.blankWhere isRefused text

/-- The lines that were read stay as they are, with their numbers. -/
theorem parseLines_blankRefused (text : String) :
    parseLines (blankRefused text) =
      (parseLines text).filter fun parsed => parsed.result.isOk := by
  have hempty : ∀ number, SourceLine.ofNumbered? ([], number) = none := fun _ => rfl
  rw [parseLines, parseLines, sourceLines, sourceLines, blankRefused,
    Text.filterMap_lines_blankWhere isRefused _ hempty, List.filter_map,
    List.filter_filterMap]
  congr 2
  funext numbered
  simp only [SourceLine.ofNumbered?, isRefused]
  by_cases hnil : (codePart numbered.1).isEmpty = true
  · simp [hnil]
  · by_cases hok : (Command.parse (String.ofList (codePart numbered.1))).isOk = true
    · simp [hnil, hok, SourceLine.parse, Option.filter]
    · simp [hnil, hok, SourceLine.parse, Option.filter]

/-- The warnings of a log, as a log. -/
def Log.warningsOnly (log : Log) : Log :=
  { entries := log.entries.filter fun d => d.severity = .warning
    errors := .zero
    warnings := log.warnings }

/-- What is compiled, without blocks that have no code and without errors. -/
def Compilation.accepted (c : Compilation) : Compilation :=
  { c with blocks := c.blocks.filter fun block => !block.isError, log := c.log.warningsOnly }

theorem Log.warningsOnly_of_push_error {log log' : Log} {d : Diagnostic}
    (hd : d.severity = .error) (h : log.push d = .ok log') :
    log'.warningsOnly = log.warningsOnly := by
  simp only [Log.push, hd] at h
  rcases map_eq_ok_iff.mp h with ⟨count, -, rfl⟩
  simp [Log.warningsOnly, hd]

theorem Log.push_warningsOnly {log log' : Log} {d : Diagnostic} (hd : d.severity = .warning)
    (h : log.push d = .ok log') : log.warningsOnly.push d = .ok log'.warningsOnly := by
  simp only [Log.push, hd] at h ⊢
  rcases map_eq_ok_iff.mp h with ⟨count, hcount, rfl⟩
  refine map_eq_ok_iff.mpr ⟨count, hcount, ?_⟩
  simp [Log.warningsOnly, hd]

namespace Compiling

variable {options : Options} {s s' : Compiling}

/-- What is compiled so far, without refused lines, in the same context. -/
def accepted (s : Compiling) : Compiling :=
  { s with output := s.output.accepted }

theorem accepted_emit_of_isError {block : Block} (h : block.isError = true) :
    (s.emit block).accepted = s.accepted := by
  simp [accepted, Compilation.accepted, emit, h]

theorem accepted_emit {block : Block} (h : block.isError = false) :
    (s.emit block).accepted = s.accepted.emit block := by
  simp [accepted, Compilation.accepted, emit, h]

/-- An error is not among what is accepted. -/
theorem accepted_of_report_error {d : Diagnostic} (hd : d.severity = .error)
    (h : s.report d = .ok s') : s'.accepted = s.accepted := by
  rcases map_eq_ok_iff.mp h with ⟨log, hlog, rfl⟩
  simp only [accepted, Compilation.accepted, Log.warningsOnly_of_push_error hd hlog]

/-- A warning is accepted whatever else was reported. -/
theorem report_accepted {d : Diagnostic} (hd : d.severity = .warning)
    (h : s.report d = .ok s') : s.accepted.report d = .ok s'.accepted := by
  rcases map_eq_ok_iff.mp h with ⟨log, hlog, rfl⟩
  exact map_eq_ok_iff.mpr ⟨_, Log.push_warningsOnly hd hlog, rfl⟩

theorem declare_accepted {location : Location} {command : Command}
    (h : declare options location command s = .ok s') :
    declare options location command s.accepted = .ok s'.accepted := by
  have hctx : s.accepted.ctx = s.ctx := rfl
  unfold declare at h ⊢
  rw [hctx]
  cases hwarning : command.warning? options s.ctx with
  | none =>
      simp only [hwarning] at h
      cases h
      rfl
  | some message =>
      simp only [hwarning] at h
      exact report_accepted rfl h

/-- Compiling a refused line changes nothing that is accepted. -/
theorem accepted_of_line_error {parsed : ParsedLine} {cause : CommandError}
    (hresult : parsed.result = .error cause) (h : line options s parsed = .ok s') :
    s'.accepted = s.accepted := by
  simp only [line, hresult] at h
  rcases map_eq_ok_iff.mp h with ⟨reported, hreport, rfl⟩
  rw [accepted_emit_of_isError rfl]
  exact accepted_of_report_error rfl hreport

/-- Compiling a line that was read does the same to what is accepted, whether
    refused lines came before it or not. -/
theorem line_accepted {parsed : ParsedLine} {command : Command}
    (hread : parsed.result = Command.parse parsed.text) (hresult : parsed.result = .ok command)
    (h : line options s parsed = .ok s') : line options s.accepted parsed = .ok s'.accepted := by
  simp only [line, hresult] at h ⊢
  rcases bind_eq_ok_iff.mp h with ⟨declared, hdeclare, hrest⟩
  rcases bind_eq_ok_iff.mp hrest with ⟨⟨body, ctx⟩, hlower, hfinish⟩
  -- The command was read, so it is not refused now.
  have hformed : command.WellFormed := Command.wellFormed_of_parse (hread.symm.trans hresult)
  rcases lower_of_wellFormed hformed hlower with ⟨code, rfl⟩
  cases hfinish
  rw [accepted_emit rfl]
  exact bind_eq_ok_iff.mpr ⟨declared.accepted, declare_accepted hdeclare,
    bind_eq_ok_iff.mpr ⟨(.ok code, ctx), hlower, rfl⟩⟩

/-- Compiling lines without the refused ones gives what is accepted of compiling
    all of them. -/
theorem foldlM_line_accepted {lines : List ParsedLine}
    (hread : ∀ parsed ∈ lines, parsed.result = Command.parse parsed.text)
    (h : lines.foldlM (line options) s = .ok s') :
    (lines.filter fun parsed => parsed.result.isOk).foldlM (line options) s.accepted =
      .ok s'.accepted := by
  induction lines generalizing s with
  | nil =>
      cases h
      rfl
  | cons parsed lines ih =>
      rcases foldlM_cons_eq_ok_iff.mp h with ⟨mid, hline, hrest⟩
      have htail := ih (fun parsed hparsed => hread parsed (List.mem_cons_of_mem _ hparsed)) hrest
      rw [List.filter_cons]
      cases hresult : parsed.result with
      | error cause =>
          -- The refused line is not there to be compiled, and left no trace.
          rw [accepted_of_line_error hresult hline] at htail
          exact htail
      | ok command =>
          exact foldlM_cons_eq_ok_iff.mpr ⟨mid.accepted,
            line_accepted (hread parsed List.mem_cons_self) hresult hline, htail⟩

theorem begin_accepted (h : begin options s = .ok s') :
    begin options s.accepted = .ok s'.accepted := by
  unfold begin at h ⊢
  by_cases hstart : options.bootstrap = true
  · rw [if_pos hstart] at h ⊢
    rcases map_eq_ok_iff.mp h with ⟨⟨label, ctx⟩, hmint, rfl⟩
    refine map_eq_ok_iff.mpr ⟨(label, ctx), hmint, ?_⟩
    rw [accepted_emit rfl]
    rfl
  · rw [if_neg hstart] at h ⊢
    cases h
    rfl

end Compiling

/-- Refused lines do not affect the others. With its refused lines blanked, a
    text compiles in the same context to the same blocks, except those without
    code, with the same warnings and no errors, and leaves the same context
    behind. -/
theorem compileUnit_blankRefused {options : Options} {ctx : Context} {text : String}
    {s : Compiling} (h : compileUnit options ctx text = .ok s) :
    compileUnit options ctx (blankRefused text) = .ok s.accepted := by
  rcases bind_eq_ok_iff.mp h with ⟨begun, hbegin, hsource⟩
  have hread : ∀ parsed ∈ parseLines text, parsed.result = Command.parse parsed.text :=
    fun parsed hparsed => (parse_of_mem_parseLines hparsed).1
  have hinitial : (Compiling.initial options ctx).accepted = Compiling.initial options ctx := rfl
  have hstart := Compiling.begin_accepted hbegin
  rw [hinitial] at hstart
  refine bind_eq_ok_iff.mpr ⟨begun.accepted, hstart, ?_⟩
  rw [Compiling.source, parseLines_blankRefused]
  exact Compiling.foldlM_line_accepted hread hsource

/-- Three refused lines between lines that are warned about, with line endings of
    both kinds and none behind the last. -/
def mixedText : String :=
  "label A\r\nfoo bar\r\neq // A\npop constant 1 // B\nlabel A\nreturn\n push temp 8"

/-- A context in the middle of a program. -/
def mixedContext : Context :=
  { unit := "Main"
    labels := { nextComparison := ⟨7, by decide⟩, nextReturn := ⟨4294967294, by decide⟩ }
    function? := none
    declared := Std.TreeSet.ofList ["B", "EQ_TRUE_6"] }

/-- The lines are shown, and the program is given a start. -/
def mixedOptions : Options :=
  { echoSource := true, scopeLabels := true, bootstrap := true }

theorem compileUnit_blankRefused_mixedText :
    blankRefused mixedText = "label A\r\n\r\neq // A\n\nlabel A\nreturn\n" ∧
    ∃ s, compileUnit mixedOptions mixedContext mixedText = .ok s ∧
      s.output.log.entries.size = 5 ∧ s.accepted.output.blocks.size = 5 ∧
      compileUnit mixedOptions mixedContext (blankRefused mixedText) = .ok s.accepted := by
  have hsizes : (compileUnit mixedOptions mixedContext mixedText).toOption.any (fun s =>
      s.output.log.entries.size = 5 ∧ s.accepted.output.blocks.size = 5) = true := by
    decide +kernel
  refine ⟨by decide +kernel, ?_⟩
  rcases exists_ok_of_any hsizes with ⟨s, hcompile, hpassed⟩
  rcases of_decide_eq_true hpassed with ⟨hentries, hblocks⟩
  exact ⟨s, hcompile, hentries, hblocks, compileUnit_blankRefused hcompile⟩

end HackVM
