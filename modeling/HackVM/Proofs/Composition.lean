import HackVM.Proofs.Counts

/-!
# Texts in Parts

Compiling a text in one go, or one part after the other.

A text may be cut wherever a line ends. Compiling the first part leaves a context
behind, and compiling the second part in that context gives the blocks and the
messages that the second part has in the whole, except that its lines are
numbered from one again. Nothing else is passed on: a line looks at its context,
which it changes, and adds to what is compiled, which it does not look at. The
one thing that can be seen of what was compiled before is how much room is left
in the counts of the log, and this comes out the same. The counts of two logs
together run out if one of them does.

What is compiled apart is therefore put behind what is there already, first
thing or last thing. `Compiling.behind` is the move, and each part of compiling a
line commutes with it.

## Main definitions

* `Location.below` and others: The same, so many lines further down.
* `Compiling.behind`: What is compiled apart, put behind other output.

## Theorems

* `Text.lines_append`: Lines of a text in parts.
* `parseLines_append`: The second part is read as if by itself, but for its
  numbers.
* `Compiling.line_bind_behind`: A line can be compiled before or after the move.
* `Compiling.foldlM_line_bind_behind`: So can all lines of a unit.
* `compileUnit_append`: Compiling a text is compiling its parts.
-/

namespace HackVM

namespace Text

/-- A text that is empty or ends in a line feed has pieces of its own, one for
    each line feed. -/
theorem pieces_append {front : List Char} (h : ∀ c ∈ front.getLast?, c = '\n')
    (back : List Char) :
    pieces (front ++ back) = pieces front ++ pieces back ∧
      (pieces front).length = front.count '\n' := by
  induction front using newLine_induction with
  | last line hline =>
      -- A last line without a line feed is nothing at all.
      cases hlast : line.getLast? with
      | none =>
          rw [List.getLast?_eq_none_iff.mp hlast]
          exact ⟨rfl, rfl⟩
      | some c =>
          have hmem := List.mem_of_getLast? hlast
          rw [h c hlast] at hmem
          exact absurd hmem hline
  | line line rest hline ih =>
      have hrest : ∀ c ∈ rest.getLast?, c = '\n' := by
        intro c hc
        refine h c ?_
        rw [List.getLast?_append_of_ne_nil _ (List.cons_ne_nil _ _), List.getLast?_cons, hc]
        rfl
      rcases ih hrest with ⟨hpieces, hlength⟩
      rw [List.append_assoc, List.cons_append, pieces_append_newLine _ _ hline,
        pieces_append_newLine _ _ hline, hpieces, List.length_cons, hlength, List.count_append,
        List.count_eq_zero_of_not_mem hline, List.count_cons_self, Nat.zero_add]
      exact ⟨rfl, rfl⟩

/-- The lines of a text in parts, if the first part is empty or ends in a line
    feed. -/
theorem lines_append {first : String} (h : first = "" ∨ ∃ text, first = text ++ "\n")
    (second : String) :
    lines (first ++ second) = lines first ++ lines second ∧
      (lines first).length = first.toList.count '\n' := by
  have hlast : ∀ c ∈ first.toList.getLast?, c = '\n' := by
    intro c hc
    rcases h with rfl | ⟨text, rfl⟩
    · cases hc
    · rw [String.toList_append, List.getLast?_append_of_ne_nil _ (by decide)] at hc
      cases hc
      rfl
  rcases pieces_append hlast second.toList with ⟨hpieces, hlength⟩
  rw [lines, lines, lines, String.toList_append, hpieces, List.map_append, List.length_map]
  exact ⟨rfl, hlength⟩

end Text

/-- A line that stands so many lines further down. -/
def SourceLine.below (n : Nat) (source : SourceLine) : SourceLine :=
  { source with line := source.line + n }

/-- A line that stands so many lines further down. -/
def ParsedLine.below (n : Nat) (parsed : ParsedLine) : ParsedLine :=
  { parsed with line := parsed.line + n }

/-- The lines of a text in parts. The second part is numbered on from the first. -/
theorem sourceLines_append {first : String} (h : first = "" ∨ ∃ text, first = text ++ "\n")
    (second : String) :
    sourceLines (first ++ second) = sourceLines first ++
      (sourceLines second).map (SourceLine.below (first.toList.count '\n')) := by
  rcases Text.lines_append h second with ⟨hlines, hlength⟩
  rw [sourceLines, sourceLines, sourceLines, hlines, List.zipIdx_append, List.filterMap_append,
    hlength, Nat.add_comm, ← List.map_snd_add_zipIdx_eq_zipIdx, List.filterMap_map,
    List.map_filterMap]
  congr 2
  -- A number does not decide whether anything is left of a line.
  funext numbered
  simp only [Function.comp_apply, SourceLine.ofNumbered?, Prod.map_fst, Prod.map_snd, id_eq]
  split
  · rfl
  · rfl

/-- The second part is read as if by itself, but for its numbers. -/
theorem parseLines_append {first : String} (h : first = "" ∨ ∃ text, first = text ++ "\n")
    (second : String) :
    parseLines (first ++ second) = parseLines first ++
      (parseLines second).map (ParsedLine.below (first.toList.count '\n')) := by
  rw [parseLines, sourceLines_append h, List.map_append, List.map_map, parseLines, parseLines,
    List.map_map]
  rfl

/-- A location so many lines further down. -/
def Location.below (n : Nat) (location : Location) : Location :=
  { location with line := location.line + n }

/-- A message about a place so many lines further down. -/
def Diagnostic.below (n : Nat) (d : Diagnostic) : Diagnostic :=
  { d with location := d.location.below n }

/-- A block so many lines further down. -/
def Block.below (n : Nat) (block : Block) : Block :=
  { block with location := block.location.below n }

namespace Log

/-- Messages about places so many lines further down. -/
def below (n : Nat) (log : Log) : Log :=
  { log with entries := log.entries.map (Diagnostic.below n) }

theorem push_below (log : Log) (n : Nat) (d : Diagnostic) :
    (log.below n).push (d.below n) = (log.push d).map (Log.below n) := by
  have hseverity : (d.below n).severity = d.severity := rfl
  unfold push
  rw [hseverity]
  cases d.severity with
  | error =>
      show log.errors.next.map _ = _
      cases log.errors.next with
      | error overflow => rfl
      | ok count => simp [Except.map, below]
  | warning =>
      show log.warnings.next.map _ = _
      cases log.warnings.next with
      | error overflow => rfl
      | ok count => simp [Except.map, below]

theorem Counted.below {log : Log} (h : log.Counted) (n : Nat) : (log.below n).Counted := by
  intro severity
  have hcount : (log.below n).count severity = log.count severity := by
    cases severity with
    | error => rfl
    | warning => rfl
  rw [hcount, h severity, Log.below, Array.toList_map, tally, tally, List.countP_map]
  rfl

end Log

section Overflowing

variable {α β γ : Type}

/-- An overflow is an overflow, whichever of two computations has it. -/
theorem bind_comm_overflow (x : Except Overflow α) (y : Except Overflow β)
    (f : α → β → Except Overflow γ) :
    (x >>= fun a => y >>= fun b => f a b) = y >>= fun b => x >>= fun a => f a b := by
  cases x with
  | ok a => rfl
  | error overflow =>
      cases y with
      | ok b => rfl
      | error overflow' => rfl

theorem bind_congr_ok {x : Except Overflow α} {f g : α → Except Overflow β}
    (h : ∀ a, x = .ok a → f a = g a) : x >>= f = x >>= g := by
  cases x with
  | ok a => exact h a rfl
  | error overflow => rfl

end Overflowing

namespace Compiling

variable {options : Options} {c : Compilation} {n : Nat} {t u : Compiling}

/-- What is compiled apart, so many lines further down and behind other output, if
    the counts have room for both. The context stays. -/
def behind (c : Compilation) (n : Nat) (t : Compiling) : Except Overflow Compiling := do
  let log ← c.log.extend (t.output.log.below n)
  pure { t with output := { c with
    blocks := c.blocks ++ t.output.blocks.map (Block.below n), log := log } }

theorem ctx_of_behind (h : t.behind c n = .ok u) : u.ctx = t.ctx := by
  rcases bind_eq_ok_iff.mp h with ⟨log, -, heq⟩
  cases heq
  rfl

theorem behind_setCtx (ctx : Context) :
    behind c n { t with ctx := ctx } = behind c n t >>= fun u => .ok { u with ctx := ctx } := by
  unfold behind
  cases c.log.extend (t.output.log.below n) with
  | ok log => rfl
  | error overflow => rfl

theorem behind_emit (block : Block) :
    behind c n (t.emit block) = behind c n t >>= fun u => .ok (u.emit (block.below n)) := by
  unfold behind
  show c.log.extend (t.output.log.below n) >>= _ = _
  cases c.log.extend (t.output.log.below n) with
  | ok log => simp [emit, Bind.bind, Except.bind, pure, Except.pure]
  | error overflow => rfl

/-- A message can be added before the move or after it. -/
theorem report_bind_behind (ht : t.Counted) (d : Diagnostic) :
    (t.report d >>= behind c n) = behind c n t >>= fun u => u.report (d.below n) := by
  -- Only the logs are moved and added to, and all else is put around them.
  let whole (log : Log) : Compiling :=
    { t with output := { c with
      blocks := c.blocks ++ t.output.blocks.map (Block.below n), log := log } }
  have hbefore : (t.report d >>= behind c n) =
      ((t.output.log.push d).map (Log.below n) >>= c.log.extend) >>= fun log => .ok (whole log) := by
    unfold report
    cases t.output.log.push d with
    | ok log => rfl
    | error overflow => rfl
  have hafter : (behind c n t >>= fun u => u.report (d.below n)) =
      (c.log.extend (t.output.log.below n) >>= fun log => log.push (d.below n)) >>= fun log =>
        .ok (whole log) := by
    unfold behind
    cases c.log.extend (t.output.log.below n) with
    | ok log =>
        show (log.push (d.below n)).map _ = log.push (d.below n) >>= _
        cases log.push (d.below n) with
        | ok log' => rfl
        | error overflow => rfl
    | error overflow => rfl
  rw [hbefore, hafter, ← Log.push_below, Log.push_bind_extend (ht.below n)]

/-- A declaration can be made before the move or after it. -/
theorem declare_bind_behind (ht : t.Counted) (location : Location) (command : Command) :
    (declare options location command t >>= behind c n) =
      behind c n t >>= declare options (location.below n) command := by
  -- What is declared and what is wrong with it are matters of the context.
  cases hwarning : command.warning? options t.ctx with
  | none =>
      have hbefore : declare options location command t =
          .ok { t with ctx := command.declareIn options t.ctx } := by
        simp only [declare, hwarning]
      have hafter : ∀ u, behind c n t = .ok u →
          declare options (location.below n) command u =
            .ok { u with ctx := command.declareIn options t.ctx } := by
        intro u hu
        simp only [declare, ctx_of_behind hu, hwarning]
      rw [hbefore, bind_congr_ok hafter]
      exact behind_setCtx _
  | some message =>
      have hbefore : declare options location command t =
          report { t with ctx := command.declareIn options t.ctx }
            (.ofWarning message location) := by
        simp only [declare, hwarning]
      have hafter : ∀ u, behind c n t = .ok u →
          declare options (location.below n) command u =
            report { u with ctx := command.declareIn options t.ctx }
              (.ofWarning message (location.below n)) := by
        intro u hu
        simp only [declare, ctx_of_behind hu, hwarning]
      rw [hbefore, bind_congr_ok hafter,
        report_bind_behind (t := { t with ctx := command.declareIn options t.ctx }) ht,
        behind_setCtx, bind_assoc]
      rfl

/-- The block of a line can be added before the move or after it. -/
theorem finish_bind_behind (ht : t.Counted) (location : Location) (text : String)
    (body : Except CommandError (List Instruction)) :
    (finish location text body t >>= behind c n) =
      behind c n t >>= finish (location.below n) text body := by
  cases body with
  | ok code => exact behind_emit _
  | error cause =>
      let block : Block := { location := location, source := text, body := .error cause }
      have hfinish : ∀ (location : Location) (s : Compiling),
          finish location text (.error cause) s = s.report (.ofError cause location) >>= fun s =>
            .ok (s.emit { location := location, source := text, body := .error cause }) := by
        intro location s
        show (s.report _).map _ = _
        cases s.report (.ofError cause location) with
        | ok s' => rfl
        | error overflow => rfl
      calc (finish location text (.error cause) t >>= behind c n)
          = t.report (.ofError cause location) >>= fun s => behind c n (s.emit block) := by
            rw [hfinish, bind_assoc]
            rfl
        _ = (t.report (.ofError cause location) >>= behind c n) >>= fun u =>
              .ok (u.emit (block.below n)) := by
            rw [bind_assoc]
            exact bind_congr fun s => behind_emit block
        _ = (behind c n t >>= fun u => u.report (.ofError cause (location.below n))) >>= fun u =>
              .ok (u.emit (block.below n)) := by
            rw [report_bind_behind ht]
            rfl
        _ = behind c n t >>= finish (location.below n) text (.error cause) := by
            rw [bind_assoc]
            exact bind_congr fun u => (hfinish _ u).symm

/-- Lowering needs of what came before only the context that the declaration
    leaves, so it may as well be done first. -/
theorem line_eq_of_ok {parsed : ParsedLine} {command : Command}
    (hresult : parsed.result = .ok command) (s : Compiling) :
    line options s parsed =
      lower options (command.declareIn options s.ctx) command >>= fun lowered =>
        declare options { unit := s.ctx.unit, line := parsed.line } command s >>= fun declared =>
          finish { unit := s.ctx.unit, line := parsed.line } parsed.text lowered.1
            { declared with ctx := lowered.2 } := by
  rw [bind_comm_overflow]
  simp only [line, hresult]
  refine bind_congr_ok ?_
  intro declared hdeclare
  rw [(grows_of_declare hdeclare).2]

/-- A line can be compiled before the move or after it, where it stands so many
    lines further down. -/
theorem line_bind_behind (ht : t.Counted) (parsed : ParsedLine) :
    (line options t parsed >>= behind c n) =
      behind c n t >>= fun u => line options u (parsed.below n) := by
  let location : Location := { unit := t.ctx.unit, line := parsed.line }
  cases hresult : parsed.result with
  | error cause =>
      have hline : ∀ u, behind c n t = .ok u →
          line options u (parsed.below n) =
            finish (location.below n) parsed.text (.error cause) u := by
        intro u hu
        have hbelow : (parsed.below n).result = .error cause := hresult
        simp only [line, hbelow, ctx_of_behind hu]
        rfl
      rw [bind_congr_ok hline, ← finish_bind_behind ht]
      simp only [line, hresult]
      rfl
  | ok command =>
      have hline : ∀ u, behind c n t = .ok u →
          line options u (parsed.below n) =
            lower options (command.declareIn options t.ctx) command >>= fun lowered =>
              declare options (location.below n) command u >>= fun declared =>
                finish (location.below n) parsed.text lowered.1
                  { declared with ctx := lowered.2 } := by
        intro u hu
        have hbelow : (parsed.below n).result = .ok command := hresult
        rw [line_eq_of_ok hbelow, ctx_of_behind hu]
        rfl
      rw [bind_congr_ok hline, bind_comm_overflow, line_eq_of_ok hresult, bind_assoc]
      refine bind_congr fun lowered => ?_
      -- Behind the declaration the context is replaced, which the log does not notice.
      have hfinish : ∀ declared, declare options location command t = .ok declared →
          (finish location parsed.text lowered.1 { declared with ctx := lowered.2 } >>=
              behind c n) =
            behind c n declared >>= fun u =>
              finish (location.below n) parsed.text lowered.1 { u with ctx := lowered.2 } := by
        intro declared hdeclare
        have hcounted := counted_of_declare ht hdeclare
        rw [finish_bind_behind (t := { declared with ctx := lowered.2 }) hcounted, behind_setCtx,
          bind_assoc]
        rfl
      -- The move passes the block, then the declaration.
      rw [bind_assoc, bind_congr_ok hfinish, ← bind_assoc, declare_bind_behind ht, bind_assoc]

/-- Lines can be compiled before the move or after it, where they stand so many
    lines further down. -/
theorem foldlM_line_bind_behind (ht : t.Counted) (lines : List ParsedLine) :
    (lines.foldlM (line options) t >>= behind c n) =
      behind c n t >>= fun u => (lines.map (ParsedLine.below n)).foldlM (line options) u := by
  induction lines generalizing t with
  | nil =>
      show behind c n t = behind c n t >>= pure
      rw [bind_pure]
  | cons parsed lines ih =>
      have hrest : ∀ s, line options t parsed = .ok s →
          (lines.foldlM (line options) s >>= behind c n) =
            behind c n s >>= fun u => (lines.map (ParsedLine.below n)).foldlM (line options) u :=
        fun s hs => ih (counted_of_line ht hs)
      simp only [List.foldlM_cons, List.map_cons]
      rw [bind_assoc, bind_congr_ok hrest, ← bind_assoc, line_bind_behind ht, bind_assoc]

/-- Nothing, put behind output, is that output. -/
theorem behind_initial (s : Compiling) (n : Nat) :
    behind s.output n (.initial options s.ctx) = .ok s := by
  have hblocks : (initial options s.ctx).output.blocks.map (Block.below n) = #[] := Array.map_empty
  have hlog : s.output.log.extend ((initial options s.ctx).output.log.below n) =
      .ok s.output.log := by
    rw [Log.extend, Log.below, Array.toList_map]
    rfl
  rw [behind, hlog, hblocks, Array.append_empty]
  rfl

end Compiling

/-- Without a start in front, compiling a unit is compiling its lines. -/
theorem compileUnit_of_bootstrap_eq_false {options : Options} (h : options.bootstrap = false)
    (ctx : Context) (text : String) :
    compileUnit options ctx text =
      (parseLines text).foldlM (Compiling.line options) (.initial options ctx) := by
  rw [compileUnit, Compiling.begin, if_neg (by rw [h]; decide)]
  rfl

/-- Compiling a text is compiling its parts. If the first part is empty or ends in
    a line feed, the second is compiled in the context that the first leaves, and
    its blocks and messages come behind those of the first, as many lines further
    down as the first has line feeds. The context at the end is the same, and one
    way overflows if the other does. -/
theorem compileUnit_append {options : Options} {first : String}
    (hstart : options.bootstrap = false) (hfirst : first = "" ∨ ∃ text, first = text ++ "\n")
    (ctx : Context) (second : String) :
    compileUnit options ctx (first ++ second) = (do
      let s ← compileUnit options ctx first
      let t ← compileUnit options s.ctx second
      t.behind s.output (first.toList.count '\n')) := by
  simp only [compileUnit_of_bootstrap_eq_false hstart]
  rw [parseLines_append hfirst, List.foldlM_append]
  refine bind_congr fun s => ?_
  -- The second part starts from nothing, and nothing behind the first part is the first part.
  rw [Compiling.foldlM_line_bind_behind (t := .initial options s.ctx) Log.counted_empty,
    Compiling.behind_initial]
  rfl

/-- Lines with endings of both kinds, one of them refused and one with nothing on
    it. -/
def upperText : String :=
  "function f 0\r\nlabel A\nbad line\n\n"

/-- Lines that depend on those above: a label that was declared there, and a return
    that is in a function because one was begun there. -/
def lowerText : String :=
  "label A\n\npop constant 0\r\nlt\nreturn"

/-- A context in the middle of a program. -/
def upperContext : Context :=
  { unit := "Main"
    labels := { nextComparison := ⟨4294967293, by decide⟩, nextReturn := ⟨3, by decide⟩ }
    function? := none
    declared := Std.TreeSet.ofList ["f$B"] }

/-- Labels are kept per function. -/
def upperOptions : Options :=
  { echoSource := true, scopeLabels := true, bootstrap := false }

theorem compileUnit_append_upperText :
    upperOptions.bootstrap = false ∧ (∃ text, upperText = text ++ "\n") ∧
      (compileUnit upperOptions upperContext (upperText ++ lowerText)).toOption.any (fun r =>
        r.output.log.entries.toList.map Diagnostic.render =
          ["error at Main:3: unknown command 'bad'",
            "warning at Main:5: label 'f$A' declared more than once",
            "error at Main:7: cannot pop into the constant segment"]) = true ∧
      compileUnit upperOptions upperContext (upperText ++ lowerText) = (do
        let s ← compileUnit upperOptions upperContext upperText
        let t ← compileUnit upperOptions s.ctx lowerText
        t.behind s.output 4) := by
  have hstart : upperOptions.bootstrap = false := rfl
  have hfirst : ∃ text, upperText = text ++ "\n" :=
    ⟨"function f 0\r\nlabel A\nbad line\n", by decide⟩
  have hcount : upperText.toList.count '\n' = 4 := by decide
  refine ⟨hstart, hfirst, by decide +kernel, ?_⟩
  rw [← hcount]
  exact compileUnit_append hstart (Or.inr hfirst) upperContext lowerText

end HackVM
