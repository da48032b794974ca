import HackVM.Proofs.Lowers
import Mathlib.Data.List.Forall2

/-!
# Compilation Step by Step

Compiling a program as a sequence of steps, one for each entry.

The context that compiling carries along has two halves. Unit and enclosing
function are known from the line itself, and only the other half, the label
supply and the labels recorded so far, is passed from line to line. `Names` is
that half. `Compiles` says what one entry adds, a block and messages, and
`Trace` strings such steps together. A trace does not mention units: where one
begins, nothing is added and no name is forgotten.

A command that was read is well formed and is never refused later on, so a block
without code is always that of a line that could not be read.

## Main definitions

* `Names`: What a program has named so far.
* `Compiles`: One entry.
* `Trace`: Entries one after the other.
* `Entry.Sound`: What is known of the entries of a program with names.

## Theorems

* `compiles_of_line`: Compiling a line is a step.
* `Trace.append`: Traces can be put together.
* `trace_of_compileUnit`: Compiling a unit is a trace of its entries.
* `trace_of_compileProgram`: Compiling a program is a trace of its entries.
* `Trace.location_blocks`: There is one block for each entry.
* `Trace.newLine_not_mem_source`: A block shows one line of the source.
* `Trace.printable`: Blocks of sound entries can be printed.
* `statements_text`: The text of a program says what its instructions say.
-/

namespace HackVM

/-- What a program has named so far. -/
structure Names where
  labels : LabelSupply
  declared : Std.TreeSet String

/-- Nothing is named yet. -/
def Names.initial : Names :=
  { labels := .initial, declared := ∅ }

/-- The half of a context that is passed on from line to line. -/
def Context.names (ctx : Context) : Names :=
  { labels := ctx.labels, declared := ctx.declared }

/-- The context of a line, put together from its place and the names so far. -/
def Names.context (names : Names) (unit : String) (function? : Option String) : Context :=
  { unit := unit, labels := names.labels, function? := function?, declared := names.declared }

/-- The block of a line. -/
def Line.block (l : Line) (body : Except CommandError (List Instruction)) : Block :=
  { location := l.location, source := l.parsed.text, body := body }

/-- The context in which a line is compiled. -/
def Line.context (l : Line) (names : Names) : Context :=
  names.context l.unit l.function?

/-- One entry: the block and the messages that it adds, and the names that it
    leaves. -/
inductive Compiles (options : Options) : Names → Entry → Block → List Diagnostic → Names → Prop
  | start {names : Names} {unit label : String} {ctx : Context} :
      (names.context unit none).mintReturn Lowering.entryFunction = .ok (label, ctx) →
      Compiles options names (.start unit)
        { location := { unit := unit, line := 0 }, source := "bootstrap",
          body := .ok (Lowering.bootstrap label) } [] ctx.names
  | refused {names : Names} {l : Line} {cause : CommandError} :
      l.parsed.result = .error cause →
      Compiles options names (.line l) (l.block (.error cause))
        [.ofError cause l.location] names
  | lowered {names : Names} {l : Line} {command : Command} {code : List Instruction}
      {ctx : Context} :
      l.parsed.result = .ok command → command.WellFormed →
      lower options (command.declareIn options (l.context names)) command = .ok (.ok code, ctx) →
      Compiles options names (.line l) (l.block (.ok code))
        ((command.warning? options (l.context names)).toList.map (.ofWarning · l.location))
        ctx.names

/-- Entries one after the other. -/
inductive Trace (options : Options) :
    Names → List Entry → List Block → List Diagnostic → Names → Prop
  | nil (names : Names) : Trace options names [] [] [] names
  | cons {names names' names'' : Names} {entry : Entry} {entries : List Entry} {block : Block}
      {blocks : List Block} {messages messages' : List Diagnostic} :
      Compiles options names entry block messages names' →
      Trace options names' entries blocks messages' names'' →
      Trace options names (entry :: entries) (block :: blocks) (messages ++ messages') names''

theorem Trace.append {options : Options} {names names' names'' : Names}
    {entries entries' : List Entry} {blocks blocks' : List Block}
    {messages messages' : List Diagnostic}
    (h : Trace options names entries blocks messages names')
    (h' : Trace options names' entries' blocks' messages' names'') :
    Trace options names (entries ++ entries') (blocks ++ blocks') (messages ++ messages')
      names'' := by
  induction h with
  | nil names => exact h'
  | cons hstep _ ih =>
      rw [List.append_assoc]
      exact Trace.cons hstep (ih h')

theorem Log.entries_of_push {log log' : Log} {d : Diagnostic} (h : log.push d = .ok log') :
    log'.entries.toList = log.entries.toList ++ [d] := by
  unfold Log.push at h
  split at h
  · rcases map_eq_ok_iff.mp h with ⟨count, -, rfl⟩
    exact Array.toList_push
  · rcases map_eq_ok_iff.mp h with ⟨count, -, rfl⟩
    exact Array.toList_push

/-- Recording a label stays in the unit and the function. -/
theorem Command.place_declareIn (options : Options) (ctx : Context) (command : Command) :
    (command.declareIn options ctx).unit = ctx.unit ∧
      (command.declareIn options ctx).function? = ctx.function? := by
  unfold declareIn
  split
  · exact ⟨rfl, rfl⟩
  · exact ⟨rfl, rfl⟩

/-- What was compiled stays, and blocks and messages are added behind it. -/
structure Compilation.Grows (c c' : Compilation) (blocks : List Block)
    (messages : List Diagnostic) : Prop where
  blocks : c'.blocks.toList = c.blocks.toList ++ blocks
  messages : c'.log.entries.toList = c.log.entries.toList ++ messages
  echoSource : c'.echoSource = c.echoSource

theorem Compilation.Grows.trans {c c' c'' : Compilation} {blocks blocks' : List Block}
    {messages messages' : List Diagnostic} (h : c.Grows c' blocks messages)
    (h' : c'.Grows c'' blocks' messages') :
    c.Grows c'' (blocks ++ blocks') (messages ++ messages') := by
  refine ⟨?_, ?_, h'.echoSource.trans h.echoSource⟩
  · rw [h'.blocks, h.blocks, List.append_assoc]
  · rw [h'.messages, h.messages, List.append_assoc]

namespace Compiling

variable {options : Options} {s s' : Compiling}

theorem grows_of_report {d : Diagnostic} (h : s.report d = .ok s') :
    s.output.Grows s'.output [] [d] ∧ s'.ctx = s.ctx := by
  rcases map_eq_ok_iff.mp h with ⟨log, hlog, rfl⟩
  exact ⟨⟨(List.append_nil _).symm, Log.entries_of_push hlog, rfl⟩, rfl⟩

theorem grows_emit (s : Compiling) (block : Block) :
    s.output.Grows (s.emit block).output [block] [] :=
  ⟨Array.toList_push, (List.append_nil _).symm, rfl⟩

/-- A declaration adds the warning about it and records the label. -/
theorem grows_of_declare {location : Location} {command : Command}
    (h : declare options location command s = .ok s') :
    s.output.Grows s'.output []
        ((command.warning? options s.ctx).toList.map (.ofWarning · location)) ∧
      s'.ctx = command.declareIn options s.ctx := by
  unfold declare at h
  cases hwarning : command.warning? options s.ctx with
  | none =>
      simp only [hwarning] at h
      cases h
      exact ⟨⟨(List.append_nil _).symm, (List.append_nil _).symm, rfl⟩, rfl⟩
  | some message =>
      simp only [hwarning] at h
      rcases grows_of_report h with ⟨hgrows, hctx⟩
      exact ⟨hgrows, hctx⟩

/-- The line as it stands in its context. -/
def place (s : Compiling) (parsed : ParsedLine) : Line :=
  { unit := s.ctx.unit, function? := s.ctx.function?, parsed := parsed }

/-- Compiling a line is a step. -/
theorem compiles_of_line {parsed : ParsedLine}
    (hread : parsed.result = Command.parse parsed.text)
    (h : line options s parsed = .ok s') :
    ∃ block messages, Compiles options s.ctx.names (.line (s.place parsed)) block messages
        s'.ctx.names ∧ s.output.Grows s'.output [block] messages ∧ s'.ctx.unit = s.ctx.unit ∧
      s'.ctx.function? = parsed.begins?.or s.ctx.function? := by
  unfold line at h
  cases hresult : parsed.result with
  | error cause =>
      simp only [hresult] at h
      rcases map_eq_ok_iff.mp h with ⟨reported, hreport, rfl⟩
      rcases grows_of_report hreport with ⟨hgrows, hctx⟩
      have hnames : s.ctx.names =
          (reported.emit ((s.place parsed).block (.error cause))).ctx.names :=
        congrArg Context.names hctx.symm
      have hbegins : parsed.begins? = none := by simp only [ParsedLine.begins?, hresult]
      refine ⟨_, _, hnames ▸ Compiles.refused hresult, hgrows.trans (grows_emit reported _),
        congrArg Context.unit hctx, ?_⟩
      rw [hbegins, Option.none_or]
      exact congrArg Context.function? hctx
  | ok command =>
      simp only [hresult] at h
      rcases bind_eq_ok_iff.mp h with ⟨declared, hdeclare, hrest⟩
      rcases bind_eq_ok_iff.mp hrest with ⟨⟨body, ctx⟩, hlower, hfinish⟩
      rcases grows_of_declare hdeclare with ⟨hgrows, hctx⟩
      -- The command was read, so it is not refused now.
      have hformed : command.WellFormed :=
        Command.wellFormed_of_parse (hread.symm.trans hresult)
      rcases lower_of_wellFormed hformed hlower with ⟨code, rfl⟩
      cases hfinish
      rw [hctx] at hlower
      have hplace := (lowers_of_lower hlower).place
      have hdeclareIn := command.place_declareIn options s.ctx
      refine ⟨(s.place parsed).block (.ok code), _, Compiles.lowered hresult hformed hlower,
        ?_, ?_, ?_⟩
      · have hemit := hgrows.trans (grows_emit { declared with ctx := ctx }
          ((s.place parsed).block (.ok code)))
        rwa [List.append_nil] at hemit
      · exact hplace.1.trans hdeclareIn.1
      · have hbegins : parsed.begins? = command.begins? := by
          simp only [ParsedLine.begins?, hresult]
        rw [hbegins, ← hdeclareIn.2]
        exact hplace.2

/-- Compiling lines of a unit is a trace. -/
theorem trace_of_foldlM_line {lines : List ParsedLine}
    (hread : ∀ parsed ∈ lines, parsed.result = Command.parse parsed.text)
    (h : lines.foldlM (line options) s = .ok s') :
    ∃ blocks messages, Trace options s.ctx.names
        ((placeLines s.ctx.unit s.ctx.function? lines).map .line) blocks messages s'.ctx.names ∧
      s.output.Grows s'.output blocks messages := by
  induction lines generalizing s with
  | nil =>
      cases h
      exact ⟨[], [], Trace.nil _, (List.append_nil _).symm, (List.append_nil _).symm, rfl⟩
  | cons parsed lines ih =>
      rcases foldlM_cons_eq_ok_iff.mp h with ⟨mid, hline, hrest⟩
      rcases compiles_of_line (hread parsed List.mem_cons_self) hline with
        ⟨block, messages, hcompiles, hgrows, hunit, hfunction⟩
      rcases ih (fun parsed hparsed => hread parsed (List.mem_cons_of_mem _ hparsed)) hrest with
        ⟨blocks, messages', htrace, hgrows'⟩
      -- The rest is placed by the function that the context holds now.
      rw [hunit, hfunction] at htrace
      exact ⟨block :: blocks, messages ++ messages', Trace.cons hcompiles htrace,
        hgrows.trans hgrows'⟩

/-- Compiling the text of a unit is a trace of its lines, whatever unit came
    before. -/
theorem trace_of_source {text : String} (h : source options s text = .ok s') :
    ∃ blocks messages, Trace options s.ctx.names
        ((placeLines s.ctx.unit s.ctx.function? (parseLines text)).map .line) blocks messages
        s'.ctx.names ∧
      s.output.Grows s'.output blocks messages :=
  trace_of_foldlM_line (fun _ hparsed => (parse_of_mem_parseLines hparsed).1) h

/-- Compiling further units is a trace of their lines. -/
theorem trace_of_foldlM_nextUnit {units : List (String × String)}
    (h : units.foldlM (nextUnit options) s = .ok s') :
    ∃ blocks messages, Trace options s.ctx.names ((programLines units).map .line) blocks messages
        s'.ctx.names ∧ s.output.Grows s'.output blocks messages := by
  induction units generalizing s with
  | nil =>
      cases h
      exact ⟨[], [], Trace.nil _, (List.append_nil _).symm, (List.append_nil _).symm, rfl⟩
  | cons unit units ih =>
      rcases foldlM_cons_eq_ok_iff.mp h with ⟨mid, hunit, hrest⟩
      rcases trace_of_source (s := { s with ctx := s.ctx.beginUnit unit.1 }) hunit with
        ⟨blocks, messages, htrace, hgrows⟩
      rcases ih hrest with ⟨blocks', messages', htrace', hgrows'⟩
      refine ⟨blocks ++ blocks', messages ++ messages', ?_, hgrows.trans hgrows'⟩
      have happend := htrace.append htrace'
      rwa [← List.map_append] at happend

/-- The start of a program, if asked for, is a step of its own. -/
theorem trace_of_begin (h : begin options s = .ok s') :
    ∃ blocks, Trace options s.ctx.names
        (if options.bootstrap then [.start s.ctx.unit] else []) blocks [] s'.ctx.names ∧
      s.output.Grows s'.output blocks [] ∧ s'.ctx.unit = s.ctx.unit ∧
      s'.ctx.function? = s.ctx.function? := by
  unfold begin at h
  by_cases hstart : options.bootstrap = true
  · rw [if_pos hstart] at h ⊢
    rcases map_eq_ok_iff.mp h with ⟨⟨label, ctx⟩, hmint, rfl⟩
    rcases Context.place_of_mintReturn hmint with ⟨hunit, hfunction⟩
    rcases map_eq_ok_iff.mp hmint with ⟨⟨minted, supply⟩, hreturn, heq⟩
    rcases Prod.mk.inj heq with ⟨rfl, hctx⟩
    -- The label does not depend on the function that encloses the first line.
    have houtside : (s.ctx.names.context s.ctx.unit none).mintReturn Lowering.entryFunction =
        .ok (minted, { ctx with function? := none }) :=
      map_eq_ok_iff.mpr ⟨(minted, supply), hreturn, by rw [← hctx]; rfl⟩
    refine ⟨_, Trace.cons (Compiles.start houtside) (Trace.nil _), ?_, hunit, hfunction⟩
    rw [← hunit]
    exact grows_emit { s with ctx := ctx } _
  · rw [if_neg hstart] at h ⊢
    cases h
    exact ⟨[], Trace.nil _, ⟨(List.append_nil _).symm, (List.append_nil _).symm, rfl⟩, rfl, rfl⟩

end Compiling

/-- Compiling a unit is a trace of its start and its lines. -/
theorem trace_of_compileUnit {options : Options} {ctx : Context} {text : String} {s : Compiling}
    (h : compileUnit options ctx text = .ok s) :
    Trace options ctx.names (unitEntries options ctx.unit ctx.function? text)
        s.output.blocks.toList s.output.log.entries.toList s.ctx.names ∧
      s.output.echoSource = options.echoSource := by
  rcases bind_eq_ok_iff.mp h with ⟨begun, hbegin, hsource⟩
  rcases Compiling.trace_of_begin hbegin with ⟨blocks, htrace, hgrows, hunit, hfunction⟩
  rcases Compiling.trace_of_source hsource with ⟨blocks', messages', htrace', hgrows'⟩
  have hall := hgrows.trans hgrows'
  refine ⟨?_, hall.echoSource⟩
  rw [hunit, hfunction] at htrace'
  rw [hall.blocks, hall.messages]
  exact htrace.append htrace'

/-- Compiling a program is a trace of its entries. -/
theorem trace_of_compileProgram {options : Options} {units : List (String × String)}
    {compilation : Compilation} (h : compileProgram options units = .ok compilation) :
    (∃ names, Trace options Names.initial (programEntries options units)
      compilation.blocks.toList compilation.log.entries.toList names) ∧
    compilation.echoSource = options.echoSource := by
  cases units with
  | nil =>
      cases h
      refine ⟨⟨Names.initial, ?_⟩, rfl⟩
      have hentries : programEntries options [] = [] := by
        simp [programEntries, startEntries, programLines]
      rw [hentries]
      exact Trace.nil _
  | cons unit units =>
      rcases unit with ⟨name, text⟩
      rcases bind_eq_ok_iff.mp h with ⟨s, hunit, hrest⟩
      rcases bind_eq_ok_iff.mp hrest with ⟨s', hunits, heq⟩
      cases heq
      rcases trace_of_compileUnit hunit with ⟨htrace, hecho⟩
      rcases Compiling.trace_of_foldlM_nextUnit hunits with ⟨blocks, messages, htrace', hgrows⟩
      -- The first unit, with its start, and the further units are traces in a row.
      refine ⟨⟨s'.ctx.names, ?_⟩, hgrows.echoSource.trans hecho⟩
      rw [programEntries_cons, hgrows.blocks, hgrows.messages]
      exact htrace.append htrace'

/-- Lists that correspond do so at every place. -/
theorem exists_getElem?_of_forall₂ {α β : Type} {P : α → β → Prop} {as : List α} {bs : List β}
    (h : List.Forall₂ P as bs) {i : Nat} {a : α} (ha : as[i]? = some a) :
    ∃ b, bs[i]? = some b ∧ P a b := by
  rcases List.getElem?_eq_some_iff.mp ha with ⟨hi, rfl⟩
  have hi' : i < bs.length := h.length_eq ▸ hi
  exact ⟨bs[i], List.getElem?_eq_getElem hi', h.get hi hi'⟩

/-- A block comes from an entry, with some names before and after. -/
def Produces (options : Options) (entry : Entry) (block : Block) : Prop :=
  ∃ names messages names', Compiles options names entry block messages names'

/-- Every block of a trace comes from its entry. -/
theorem Trace.produces {options : Options} {names names' : Names} {entries : List Entry}
    {blocks : List Block} {messages : List Diagnostic}
    (h : Trace options names entries blocks messages names') :
    List.Forall₂ (Produces options) entries blocks := by
  induction h with
  | nil names => exact List.Forall₂.nil
  | cons hstep _ ih => exact List.Forall₂.cons ⟨_, _, _, hstep⟩ ih

/-- There is one block for each entry, in order, and it stands where the entry
    does. -/
theorem Trace.location_blocks {options : Options} {names names' : Names} {entries : List Entry}
    {blocks : List Block} {messages : List Diagnostic}
    (h : Trace options names entries blocks messages names') :
    blocks.map Block.location = entries.map Entry.location := by
  induction h with
  | nil names => rfl
  | cons hstep _ ih =>
      rw [List.map_cons, List.map_cons, ih]
      cases hstep <;> rfl

/-- What a block shows of the source is one line. -/
theorem Compiles.newLine_not_mem_source {options : Options} {names names' : Names} {entry : Entry}
    {block : Block} {messages : List Diagnostic}
    (h : Compiles options names entry block messages names') (hread : entry.Read) :
    '\n' ∉ block.source.toList := by
  cases h with
  | start hmint =>
      show '\n' ∉ "bootstrap".toList
      decide
  | refused hresult => exact hread.text
  | lowered hresult hformed hlower => exact hread.text

/-- What the blocks of a trace show of the source is one line each. -/
theorem Trace.newLine_not_mem_source {options : Options} {names names' : Names}
    {entries : List Entry} {blocks : List Block} {messages : List Diagnostic}
    (h : Trace options names entries blocks messages names')
    (hread : ∀ entry ∈ entries, entry.Read) :
    ∀ block ∈ blocks, '\n' ∉ block.source.toList := by
  induction h with
  | nil names => exact List.forall_mem_nil _
  | cons hstep _ ih =>
      rw [List.forall_mem_cons] at hread ⊢
      exact ⟨hstep.newLine_not_mem_source hread.1, ih hread.2⟩

/-- The block of a start is the start of a program. -/
theorem Produces.start_cases {options : Options} {unit : String} {block : Block}
    (h : Produces options (.start unit) block) :
    ∃ label, block.instructions = Lowering.bootstrap label := by
  rcases h with ⟨names, messages, names', h⟩
  cases h
  exact ⟨_, rfl⟩

/-- The block of a line has no code if the line was refused, and the code of its
    command in its place if it was not. -/
theorem Produces.line_cases {options : Options} {l : Line} {block : Block}
    (h : Produces options (.line l) block) :
    (∃ cause, l.parsed.result = .error cause ∧ block.instructions = []) ∨
      ∃ command code ctx ctx', l.parsed.result = .ok command ∧ block.instructions = code ∧
        ctx.unit = l.unit ∧ ctx.function? = l.function? ∧
        Lowers options ctx command code ctx' := by
  rcases h with ⟨names, messages, names', h⟩
  cases h with
  | refused hresult => exact Or.inl ⟨_, hresult, rfl⟩
  | lowered hresult hformed hlower =>
      rename_i command code ctx
      have hplace := command.place_declareIn options (l.context names)
      exact Or.inr ⟨command, code, _, ctx, hresult, rfl, hplace.1, hplace.2,
        lowers_of_lower hlower⟩

/-- A label is resolved by the enclosing function alone. -/
theorem Line.resolveLabel_eq_symbol {l : Line} {ctx : Context} (options : Options)
    (h : ctx.function? = l.function?) (name : String) :
    ctx.resolveLabel options.scopeLabels name = l.symbol options name := by
  unfold Context.resolveLabel Line.symbol
  rw [h]
  cases l.function? with
  | none => cases options.scopeLabels <;> rfl
  | some function => cases options.scopeLabels <;> rfl

/-- A static variable is named by the unit alone. -/
theorem Line.staticSymbol_eq {l : Line} {ctx : Context} (h : ctx.unit = l.unit) (index : Word) :
    ctx.staticSymbol index = l.staticSymbol index := by
  unfold Context.staticSymbol Line.staticSymbol
  rw [h]

section Printing

variable {options : Options} {block : Block}

/-- The start of a program is legible, whatever its unit is called. -/
theorem legible_bootstrap {label : String} (hlabel : isName label = true) :
    ∀ i ∈ Lowering.bootstrap label, i.Legible := by
  have hsetup : ∀ i ∈ [Instruction.atConstant 256, .assign .d (.only .a), .atSymbol "SP",
      .assign .m .d], i.Legible := by decide
  intro i hi
  rcases List.mem_append.mp hi with hi | hi
  · exact hsetup i hi
  · exact legible_call 0 (by decide) hlabel i hi

theorem printable_of_start {unit : String} (hunit : isName unit = true)
    (h : Produces options (.start unit) block) : block.Printable := by
  rcases h with ⟨names, messages, names', h⟩
  cases h with
  | start hmint =>
      have hsource : '\n' ∉ "bootstrap".toList := by decide
      refine ⟨hsource, fun hmem => ?_, nofun,
        legible_bootstrap (Context.isName_mintReturn (by decide) hmint)⟩
      exact absurd (plain_of_isName hunit _ hmem).1 (by decide)

theorem printable_of_line {l : Line} (hunit : isName l.unit = true)
    (hfunction : ∀ name, l.function? = some name → isName name = true)
    (hread : l.parsed.result = Command.parse l.parsed.text)
    (htext : '\n' ∉ l.parsed.text.toList) (h : Produces options (.line l) block) :
    block.Printable := by
  have hplain : '\n' ∉ l.unit.toList := by
    intro hmem
    exact absurd (plain_of_isName hunit _ hmem).1 (by decide)
  rcases h with ⟨names, messages, names', h⟩
  cases h with
  | refused hresult =>
      refine ⟨htext, hplain, Command.oneLine_of_parse (hread.symm.trans hresult), ?_⟩
      intro i hi
      cases hi
  | lowered hresult hformed hlower =>
      rename_i command code ctx
      have hplace := command.place_declareIn options (l.context names)
      exact ⟨htext, hplain, nofun, (lowers_of_lower hlower).legible hformed.names
        (hplace.1 ▸ hunit) fun name hname => hfunction name (hplace.2.symm.trans hname)⟩

end Printing

/-- What is known of the entries of a program with names: every line was read,
    and it stands in a unit and a function with names. -/
def Entry.Sound : Entry → Prop
  | .start unit => isName unit = true
  | .line l => isName l.unit = true ∧ (∀ name, l.function? = some name → isName name = true) ∧
      l.parsed.result = Command.parse l.parsed.text ∧ '\n' ∉ l.parsed.text.toList

/-- Every block of a trace of sound entries can be printed. -/
theorem Trace.printable {options : Options} {names names' : Names} {entries : List Entry}
    {blocks : List Block} {messages : List Diagnostic}
    (h : Trace options names entries blocks messages names')
    (hentries : ∀ entry ∈ entries, entry.Sound) : ∀ block ∈ blocks, block.Printable := by
  induction h with
  | nil names => nofun
  | @cons _ _ _ entry _ _ _ _ _ hstep _ ih =>
      rw [List.forall_mem_cons] at hentries ⊢
      refine ⟨?_, ih hentries.2⟩
      cases entry with
      | start unit => exact printable_of_start hentries.1 ⟨_, _, _, hstep⟩
      | line l =>
          rcases hentries.1 with ⟨hunit, hfunction, hread, htext⟩
          exact printable_of_line hunit hfunction hread htext ⟨_, _, _, hstep⟩

/-- Every block of a program whose units have names can be printed. -/
theorem printable_of_compileProgram {options : Options} {units : List (String × String)}
    {compilation : Compilation} (hunits : ∀ unit ∈ units, isName unit.1 = true)
    (h : compileProgram options units = .ok compilation) :
    ∀ block ∈ compilation.blocks.toList, block.Printable := by
  rcases (trace_of_compileProgram h).1 with ⟨names, htrace⟩
  refine htrace.printable ?_
  intro entry hentry
  cases entry with
  | start unit =>
      rcases start_mem_programEntries hentry with ⟨u, hu, rfl⟩
      exact hunits u hu
  | line l => exact isName_of_mem_programLines hunits (line_mem_programEntries hentry)

/-- The text of a program says what its instructions say. -/
theorem statements_text {options : Options} {units : List (String × String)}
    {compilation : Compilation} (hunits : ∀ unit ∈ units, isName unit.1 = true)
    (h : compileProgram options units = .ok compilation) :
    (statements compilation.text).map (·.statement) =
      compilation.instructions.filterMap Instruction.statement? :=
  statements_renderText _ (printable_of_compileProgram hunits h)

/-- Every block of a unit with a name, in a function with a name, can be
    printed. -/
theorem printable_of_compileUnit {options : Options} {ctx : Context} {text : String}
    {s : Compiling} (hunit : isName ctx.unit = true)
    (hfunction : ∀ name, ctx.function? = some name → isName name = true)
    (h : compileUnit options ctx text = .ok s) :
    ∀ block ∈ s.output.blocks.toList, block.Printable := by
  refine (trace_of_compileUnit h).1.printable ?_
  intro entry hentry
  rcases mem_unitEntries hentry with rfl | ⟨l, hl, rfl⟩
  · exact hunit
  · exact isName_of_mem_placeLines hunit hfunction hl

end HackVM
