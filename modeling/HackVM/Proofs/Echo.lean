import HackVM.Image.Assembler
import HackVM.Proofs.Composition

/-!
# Listings with and without Source

What showing the source in a listing changes for the assembler: nothing.

A listing may hold, in front of the code of each line, the line itself as a
comment. A comment makes no statement, so the two listings of a program say the
same, as long as the comment is one line. It is, for a line of a text has no line
feed, and a carriage return at its end is dropped with the line ending. The rest
of a listing may be anything. The names of units need not be names, and those
that hold line feeds put lines of their own into the code, but they do so in both
listings.

What does change is where a statement stands. An error names the line, so errors
are compared without their lines. Assembling does not look at them otherwise:
taking away the numbers of the statements takes them away from the error.

## Main definitions

* `Compiling.showing`: The same with another choice about the source.
* `NumberedStatement.unnumbered`, `AssemblyError.unnumbered`: The same without the
  line.

## Theorems

* `compileProgram_echoSource`: Compiling does not depend on the choice.
* `Text.lines_unlines_flatMap`: A written line is read as lines of its own.
* `map_unnumbered_renderText`: A listing says what its instructions say.
* `Block.said_listing`: The source of a block says nothing.
* `mapError_assemble`: An error depends on line numbers by its own only.
* `assemble_echoSource`: Both listings are assembled alike.
-/

namespace HackVM

section Runs

variable {ε ε' α α' β β' : Type}

/-- What is changed first comes out changed if what follows passes the change on. -/
theorem map_bind_eq_map {g : α → α'} {k : β → β'} {f : α → Except ε β} {f' : α' → Except ε β'}
    (h : ∀ a, f' (g a) = (f a).map k) (x : Except ε α) :
    (x.map g >>= f') = (x >>= f).map k := by
  cases x with
  | error e => rfl
  | ok a => exact h a

/-- A run from a changed state is a changed run if each step is. -/
theorem foldlM_eq_map {f : β → α → Except ε β} {g : β → β}
    (h : ∀ s a, f (g s) a = (f s a).map g) (s : β) (xs : List α) :
    xs.foldlM f (g s) = (xs.foldlM f s).map g := by
  induction xs generalizing s with
  | nil => rfl
  | cons x xs ih =>
      rw [List.foldlM_cons, List.foldlM_cons, h]
      exact map_bind_eq_map ih _

/-- A run fails with a changed error if each step does. -/
theorem mapError_foldlM {f : β → α → Except ε β} {f' : β → α' → Except ε' β} {e : ε → ε'}
    {g : α → α'} (h : ∀ s a, (f s a).mapError e = f' s (g a)) (s : β) (xs : List α) :
    (xs.foldlM f s).mapError e = (xs.map g).foldlM f' s := by
  induction xs generalizing s with
  | nil => rfl
  | cons x xs ih =>
      rw [List.map_cons, List.foldlM_cons, List.foldlM_cons, ← h]
      cases f s x with
      | error e => rfl
      | ok t => exact ih t

theorem mapError_bind (x : Except ε α) (f : α → Except ε β) (e : ε → ε') :
    (x.bind f).mapError e = (x.mapError e).bind fun a => (f a).mapError e := by
  cases x with
  | error e => rfl
  | ok a => rfl

theorem mapError_map (x : Except ε α) (f : α → β) (e : ε → ε') :
    (x.map f).mapError e = (x.mapError e).map f := by
  cases x with
  | error e => rfl
  | ok a => rfl

end Runs

namespace Compiling

variable {options : Options} {s : Compiling} {echo : Bool}

/-- What is compiled so far, with another choice about the source. -/
def showing (echo : Bool) (s : Compiling) : Compiling :=
  { s with output := { s.output with echoSource := echo } }

theorem ctx_showing : (s.showing echo).ctx = s.ctx := rfl

theorem report_showing (d : Diagnostic) :
    (s.showing echo).report d = (s.report d).map (showing echo) := by
  show (s.output.log.push d).map _ = ((s.output.log.push d).map _).map _
  cases s.output.log.push d with
  | error overflow => rfl
  | ok log => rfl

theorem declare_showing (location : Location) (command : Command) :
    declare options location command (s.showing echo) =
      (declare options location command s).map (showing echo) := by
  unfold declare
  rw [ctx_showing]
  cases command.warning? options s.ctx with
  | none => rfl
  | some message =>
      exact report_showing (s := { s with ctx := command.declareIn options s.ctx }) _

theorem finish_showing (location : Location) (text : String)
    (body : Except CommandError (List Instruction)) :
    finish location text body (s.showing echo) =
      (finish location text body s).map (showing echo) := by
  cases body with
  | ok code => rfl
  | error cause =>
      show ((s.showing echo).report _).map _ = ((s.report _).map _).map _
      rw [report_showing]
      cases s.report (.ofError cause location) with
      | error overflow => rfl
      | ok reported => rfl

/-- A line is compiled alike whether the source is shown or not. -/
theorem line_showing (s : Compiling) (parsed : ParsedLine) :
    line options (s.showing echo) parsed = (line options s parsed).map (showing echo) := by
  cases hresult : parsed.result with
  | error cause =>
      simp only [line, hresult]
      exact finish_showing _ _ _
  | ok command =>
      rw [line_eq_of_ok hresult, line_eq_of_ok hresult, ctx_showing]
      -- What is lowered depends on the context, and that is the same.
      cases lower options (command.declareIn options s.ctx) command with
      | error overflow => rfl
      | ok lowered =>
          show (declare options _ command (s.showing echo) >>= _) =
            Except.map _ (declare options _ command s >>= _)
          rw [declare_showing]
          refine map_bind_eq_map ?_ _
          intro declared
          exact finish_showing (s := { declared with ctx := lowered.2 }) _ _ _

theorem source_showing (s : Compiling) (text : String) :
    source options (s.showing echo) text = (source options s text).map (showing echo) :=
  foldlM_eq_map line_showing s _

theorem nextUnit_showing (s : Compiling) (unit : String × String) :
    nextUnit options (s.showing echo) unit = (nextUnit options s unit).map (showing echo) :=
  source_showing { s with ctx := s.ctx.beginUnit unit.1 } unit.2

theorem begin_showing (s : Compiling) :
    begin options (s.showing echo) = (begin options s).map (showing echo) := by
  unfold begin
  split
  · show (s.ctx.mintReturn _).map _ = ((s.ctx.mintReturn _).map _).map _
    cases s.ctx.mintReturn Lowering.entryFunction with
    | error overflow => rfl
    | ok minted => rfl
  · rfl

end Compiling

/-- A unit is compiled alike whether the source is shown or not. -/
theorem compileUnit_echoSource (options : Options) (echo : Bool) (ctx : Context) (text : String) :
    compileUnit { options with echoSource := echo } ctx text =
      (compileUnit options ctx text).map (Compiling.showing echo) := by
  -- No step looks at the choice. It is only noted at the beginning.
  show (Compiling.begin options ((Compiling.initial options ctx).showing echo) >>= fun s =>
      Compiling.source options s text) = Except.map _ (Compiling.begin options _ >>= _)
  rw [Compiling.begin_showing]
  exact map_bind_eq_map (fun s => Compiling.source_showing s text) _

/-- A program is compiled alike whether the source is shown or not. -/
theorem compileProgram_echoSource (options : Options) (echo : Bool)
    (units : List (String × String)) :
    compileProgram { options with echoSource := echo } units =
      (compileProgram options units).map fun c => { c with echoSource := echo } := by
  cases units with
  | nil => rfl
  | cons unit units =>
      rcases unit with ⟨name, text⟩
      simp only [compileProgram, compileUnit_echoSource]
      refine map_bind_eq_map (fun s => ?_) _
      show (units.foldlM (Compiling.nextUnit options) (s.showing echo) >>= _) = _
      rw [foldlM_eq_map Compiling.nextUnit_showing]
      refine map_bind_eq_map ?_ _
      intro s'
      rfl

namespace Text

/-- A written line is read as lines of its own, of which there are several if it
    holds line feeds. -/
theorem lines_unlines_flatMap (ls : List String) :
    lines (unlines ls) = ls.flatMap fun line => lines (line ++ "\n") := by
  induction ls with
  | nil => rfl
  | cons l ls ih =>
      have hcons : unlines (l :: ls) = (l ++ "\n") ++ unlines ls := by
        refine String.toList_inj.mp ?_
        rw [toList_unlines, String.toList_append, toList_unlines, String.toList_append,
          List.flatMap_cons]
        rfl
      rw [hcons, (lines_append (Or.inr ⟨l, rfl⟩) _).1, List.flatMap_cons, ih]

end Text

/-- A statement without the line it stands on. -/
def NumberedStatement.unnumbered (n : NumberedStatement) : NumberedStatement :=
  { n with line := 0 }

/-- What a line of text says, wherever it stands. -/
def NumberedStatement.ofLine? (line : List Char) : Option NumberedStatement :=
  ofNumbered? (line, 0)

/-- Without their lines, the statements of a text are those of its lines. -/
theorem map_unnumbered_statements (text : String) :
    (statements text).map NumberedStatement.unnumbered =
      (Text.lines text).filterMap NumberedStatement.ofLine? := by
  conv_rhs => rw [← List.zipIdx_map_fst 1 (Text.lines text)]
  rw [statements, List.map_filterMap, List.filterMap_map]
  congr 1
  funext numbered
  simp only [Function.comp_apply, NumberedStatement.ofLine?, NumberedStatement.ofNumbered?,
    Option.map_map]
  rfl

/-- The statements on the lines of a written instruction. -/
def Instruction.said (i : Instruction) : List NumberedStatement :=
  (Text.lines (i.render ++ "\n")).filterMap NumberedStatement.ofLine?

/-- A comment says nothing if it is one line. -/
theorem Instruction.said_comment {text : String} (h : '\n' ∉ text.toList) :
    (comment text).said = [] := by
  have hlines := Text.lines_unlines_chomp [(comment text).render] (by
    intro line hline
    rw [List.mem_singleton.mp hline]
    exact newLine_not_mem_render (i := .comment text) h)
  rw [Text.lines_unlines_flatMap, List.flatMap_singleton] at hlines
  rw [said, hlines, List.map_singleton, List.filterMap_cons, NumberedStatement.ofLine?,
    NumberedStatement.ofNumbered?, ofLine?_chomp_comment]
  rfl

/-- A listing says what its instructions say. -/
theorem map_unnumbered_renderText (echo : Bool) (blocks : List Block) :
    (statements (renderText echo blocks)).map NumberedStatement.unnumbered =
      blocks.flatMap fun block => (block.listing echo).flatMap Instruction.said := by
  rw [map_unnumbered_statements, renderText, Text.lines_unlines_flatMap, List.flatMap_map,
    List.filterMap_flatMap, List.flatMap_assoc]
  rfl

/-- The source of a block, shown as a comment, says nothing. -/
theorem Block.said_listing {block : Block} (h : '\n' ∉ block.source.toList) (echo : Bool) :
    (block.listing echo).flatMap Instruction.said =
      (block.listing false).flatMap Instruction.said := by
  cases echo with
  | false => rfl
  | true =>
      show (Instruction.comment block.source :: block.listing false).flatMap _ = _
      rw [List.flatMap_cons, Instruction.said_comment h, List.nil_append]

namespace AssemblyError

/-- A cause without the line it names. -/
def unnumbered : AssemblyError → AssemblyError
  | .unreadable _ text => .unreadable 0 text
  | .constantTooLarge _ value => .constantTooLarge 0 value
  | .duplicateLabel _ label => .duplicateLabel 0 label
  | .overflow => .overflow

end AssemblyError

/-- Counting fails without naming a line. -/
theorem mapError_following (counter : AddressCounter) :
    counter.following.mapError AssemblyError.unnumbered = counter.following := by
  unfold Counter.following
  cases counter.next with
  | ok following => rfl
  | error overflow => rfl

/-- The first pass depends on the line of a statement in its error only. -/
theorem Labelling.mapError_add (s : Labelling) (n : NumberedStatement) :
    (s.add n).mapError AssemblyError.unnumbered = s.add n.unnumbered := by
  have hstatement : n.unnumbered.statement = n.statement := rfl
  unfold add
  rw [hstatement]
  cases n.statement with
  | label name =>
      dsimp only
      cases s.symbols.find? name with
      | some address => rfl
      | none => rfl
  | load operand =>
      show (s.nextAddress.following.map _).mapError _ = _
      rw [mapError_map, mapError_following]
  | compute code =>
      show (s.nextAddress.following.map _).mapError _ = _
      rw [mapError_map, mapError_following]

theorem Resolving.mapError_loadSymbol (s : Resolving) (name : String) :
    (s.loadSymbol name).mapError AssemblyError.unnumbered = s.loadSymbol name := by
  unfold loadSymbol
  cases s.symbols.find? name with
  | some address => rfl
  | none =>
      dsimp only
      rw [mapError_map, mapError_following]

theorem Resolving.mapError_load (s : Resolving) (n : NumberedStatement) (operand : List Char) :
    (s.load n operand).mapError AssemblyError.unnumbered = s.load n.unnumbered operand := by
  unfold load
  by_cases hempty : operand.isEmpty = true
  · rw [if_pos hempty, if_pos hempty]
    rfl
  · rw [if_neg hempty, if_neg hempty]
    by_cases hnumeral : Text.isNumeral operand = true
    · rw [if_pos hnumeral, if_pos hnumeral]
      cases Text.readNumeral? maxLoad operand with
      | some value => rfl
      | none => rfl
    · rw [if_neg hnumeral, if_neg hnumeral]
      exact mapError_loadSymbol s _

/-- So does the second. -/
theorem Resolving.mapError_add (s : Resolving) (n : NumberedStatement) :
    (s.add n).mapError AssemblyError.unnumbered = s.add n.unnumbered := by
  have hstatement : n.unnumbered.statement = n.statement := rfl
  unfold add
  rw [hstatement]
  cases n.statement with
  | label name => rfl
  | load operand => exact mapError_load s n operand
  | compute code =>
      dsimp only
      cases Computation.parse? code with
      | some c => rfl
      | none => rfl

/-- Without its line, an error of a text depends on the statements without their
    lines. -/
theorem mapError_assemble (text : String) :
    (assemble text).mapError AssemblyError.unnumbered =
      (labelStatements ((statements text).map NumberedStatement.unnumbered)).bind fun symbols =>
        resolveStatements symbols ((statements text).map NumberedStatement.unnumbered) := by
  rw [assemble, mapError_bind, labelStatements, mapError_map,
    mapError_foldlM Labelling.mapError_add]
  congr 1
  funext symbols
  rw [resolveStatements, mapError_map, mapError_foldlM Resolving.mapError_add]
  rfl

/-- Showing the source in a listing makes no difference to the assembler. Any
    units, whatever their names and sources, give with the source shown and without
    a text that is assembled to the same code with the same symbols, or that fails
    for the same cause, but for the line where it stands. -/
theorem assemble_echoSource (options : Options) (units : List (String × String)) :
    (compileProgram { options with echoSource := true } units).map (fun compilation =>
        (assemble compilation.text).mapError AssemblyError.unnumbered) =
      (compileProgram { options with echoSource := false } units).map (fun compilation =>
        (assemble compilation.text).mapError AssemblyError.unnumbered) := by
  rw [compileProgram_echoSource options true, compileProgram_echoSource options false]
  cases hcompile : compileProgram options units with
  | error overflow => rfl
  | ok compilation =>
      rcases (trace_of_compileProgram hcompile).1 with ⟨names, htrace⟩
      have hsource := htrace.newLine_not_mem_source
        fun entry hentry => (read_of_mem_programEntries hentry).1
      have hsaid : (statements (renderText true compilation.blocks.toList)).map
            NumberedStatement.unnumbered =
          (statements (renderText false compilation.blocks.toList)).map
            NumberedStatement.unnumbered := by
        rw [map_unnumbered_renderText, map_unnumbered_renderText]
        exact List.flatMap_congr fun block hblock => block.said_listing (hsource block hblock) true
      refine congrArg Except.ok ?_
      show (assemble (renderText true _)).mapError _ = (assemble (renderText false _)).mapError _
      rw [mapError_assemble, mapError_assemble, hsaid]

end HackVM
