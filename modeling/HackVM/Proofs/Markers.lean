import HackVM.Proofs.Accounting

/-!
# Marks of Errors

How to tell from a listing alone that a program has errors.

A line that was refused leaves a comment in the listing, and such comments start
with a mark. Whoever has only the text can look for the mark, and this is as good
as asking the log. It is not obvious, because the source is shown in comments,
too, and anybody can write a line that starts like a mark. But the mark ends in a
blank, so the first word of such a line is its first half, and this is no
command: a line that forges a mark is refused itself.

The names of units are the one thing in a listing that nobody has looked at. A
name may hold anything but a line feed, which would break a mark in two or start
a line of its own.

## Main definitions

* `errorMark`, `isMarked`: The mark, and the lines that start with it.
* `Block.Clear`: What makes the listing of a block clear about errors.

## Theorems

* `Text.words_append_blank`: A word ends at the next blank.
* `Command.parse_of_isMarked`: What forges a mark is no command.
* `isMarked_chomp`: A mark does not depend on the line ending.
* `Compiles.clear`: Compiling an entry gives a clear block.
* `Block.countP_isMarked_listing`, `Block.exists_isMarked_listing`: The marks of a
  block.
* `countP_isMarked_lines`: The marks of a listing are those of its blocks.
* `Trace.countP_isError`: The log counts the blocks that failed.
* `marked_iff_hasErrors`: There is a mark if there are errors.
-/

namespace HackVM

namespace Text

/-- Visible characters join the word that follows them. -/
theorem foldr_cons_word {word : List Char} (hword : ∀ c ∈ word, isBlank c = false)
    (s : OpenWords) :
    word.foldr OpenWords.cons s = { s with current := word ++ s.current } := by
  induction word with
  | nil => rfl
  | cons c word ih =>
      rw [List.forall_mem_cons] at hword
      rw [List.foldr_cons, ih hword.2, OpenWords.cons, hword.1]
      rfl

/-- A word ends at the next blank. -/
theorem words_append_blank {word : List Char} {c : Char} (hne : word ≠ [])
    (hword : ∀ c ∈ word, isBlank c = false) (hc : isBlank c = true) (rest : List Char) :
    words (word ++ c :: rest) = word :: words rest := by
  have hempty : word.isEmpty = false := by simpa using hne
  rw [words, List.foldr_append, List.foldr_cons, OpenWords.cons, if_pos hc,
    foldr_cons_word hword, OpenWords.close, List.append_nil, hempty]
  rfl

end Text

/-- What the comment about an error starts with. -/
def errorMark : List Char :=
  "// ERROR ".toList

/-- The line starts with the mark of an error. -/
def isMarked (line : List Char) : Bool :=
  errorMark.isPrefixOf line

theorem isMarked_iff {line : List Char} :
    isMarked line = true ↔ ∃ rest, line = errorMark ++ rest := by
  rw [isMarked, List.isPrefixOf_iff_prefix]
  exact exists_congr fun rest => eq_comm

/-- A mark is at the start of a line, so it does not depend on the line ending. -/
theorem isMarked_chomp (line : List Char) :
    isMarked (Text.chomp (line ++ ['\n'])) = isMarked line := by
  rcases Text.chomp_newLine_cases line with h | h
  · rw [h]
  · -- What is dropped is a carriage return, and the mark does not end in one.
    generalize Text.chomp (line ++ ['\n']) = front at h
    have hlast : errorMark ≠ front ++ ['\r'] := by
      intro heq
      have hreturn : errorMark.getLast? = some '\r' := by rw [heq, List.getLast?_concat]
      exact absurd hreturn (by decide)
    rw [h, Bool.eq_iff_iff, isMarked, isMarked, List.isPrefixOf_iff_prefix,
      List.isPrefixOf_iff_prefix, List.prefix_concat_iff]
    exact ⟨Or.inr, fun hprefix => hprefix.resolve_left hlast⟩

/-- The comment that stands in place of code is marked. -/
theorem isMarked_error (text : String) :
    isMarked (Instruction.comment ("ERROR " ++ text)).render.toList = true := by
  refine isMarked_iff.mpr ⟨text.toList, ?_⟩
  rw [Instruction.render, String.toList_append, String.toList_append, ← List.append_assoc]
  rfl

/-- What makes a comment look like a mark is no command. -/
theorem Command.parse_of_isMarked {text : String}
    (h : isMarked (Instruction.comment text).render.toList = true) :
    Command.parse text = .error (.unknownCommand "ERROR") := by
  rcases isMarked_iff.mp h with ⟨rest, hrest⟩
  have htext : text.toList = "ERROR".toList ++ ' ' :: rest := by
    have hcomment : "// ".toList ++ text.toList =
        "// ".toList ++ ("ERROR".toList ++ ' ' :: rest) := by
      rw [← String.toList_append]
      exact hrest
    exact List.append_cancel_left hcomment
  have hwords : Text.words text.toList = "ERROR".toList :: Text.words rest := by
    rw [htext]
    exact Text.words_append_blank (by decide) (List.all_iff_forall_prop.mp (by decide))
      (by decide) rest
  rw [parse, hwords]
  rfl

/-- Only a line that starts with a slash is marked. -/
theorem isMarked_eq_false {line : List Char} (h : line.head? ≠ some '/') :
    isMarked line = false := by
  by_contra hmarked
  rcases isMarked_iff.mp (Bool.not_eq_false _ ▸ hmarked) with ⟨rest, rfl⟩
  exact h rfl

namespace Block

/-- What makes the listing of a block clear about errors: comments and code keep
    to their lines, code is not marked, and what is shown of the source is not
    marked either unless the block failed. -/
structure Clear (block : Block) : Prop where
  source : '\n' ∉ block.source.toList
  unit : '\n' ∉ block.location.unit.toList
  payload : ∀ text ∈ block.payload, '\n' ∉ text.toList
  code : ∀ i ∈ block.instructions, '\n' ∉ i.render.toList ∧ isMarked i.render.toList = false
  echo : isMarked (Instruction.comment block.source).render.toList = true → block.isError = true

variable {block : Block}

/-- Every line of a clear listing is one line. -/
theorem Clear.newLine_not_mem (h : block.Clear) (echo : Bool) :
    ∀ i ∈ block.listing echo, '\n' ∉ i.render.toList := by
  intro i hi
  simp only [listing, List.mem_append] at hi
  rcases hi with (hi | hi) | hi
  · cases echo with
    | false => cases hi
    | true =>
        rw [List.mem_singleton.mp hi]
        exact Instruction.newLine_not_mem_render (i := .comment block.source) h.source
  · exact Instruction.newLine_not_mem_render (legible_errorComments h.unit h.payload i hi)
  · exact (h.code i hi).1

/-- A block has the mark of its failure. -/
theorem countP_isMarked_errorComments (block : Block) :
    (block.errorComments.countP fun i => isMarked i.render.toList) =
      if block.isError then 1 else 0 := by
  unfold errorComments isError
  cases block.body with
  | ok code => rfl
  | error cause =>
      have hmarked := isMarked_error (block.location.render ++ ": " ++ cause.message)
      simp only [← String.append_assoc] at hmarked
      simp only [List.countP_cons, List.countP_nil, hmarked]
      rfl

/-- Without the source, the mark of its failure is the only one in a block. -/
theorem countP_isMarked_listing (h : block.Clear) :
    ((block.listing false).countP fun i => isMarked i.render.toList) =
      if block.isError then 1 else 0 := by
  have hcode : (block.instructions.countP fun i => isMarked i.render.toList) = 0 := by
    rw [List.countP_eq_zero]
    intro i hi
    rw [(h.code i hi).2]
    exact Bool.false_ne_true
  rw [listing, if_neg Bool.false_ne_true, List.nil_append, List.countP_append,
    countP_isMarked_errorComments, hcode, Nat.add_zero]

/-- With the source or without, there is a mark in a block if it failed. -/
theorem exists_isMarked_listing (h : block.Clear) (echo : Bool) :
    (∃ i ∈ block.listing echo, isMarked i.render.toList = true) ↔ block.isError = true := by
  constructor
  · rintro ⟨i, hi, hmarked⟩
    simp only [listing, List.mem_append] at hi
    rcases hi with (hi | hi) | hi
    · -- A mark that is written by hand is that of a line which is refused.
      cases echo with
      | false => cases hi
      | true =>
          rw [List.mem_singleton.mp hi] at hmarked
          exact h.echo hmarked
    · by_contra hok
      have hcount := block.countP_isMarked_errorComments
      rw [if_neg hok, List.countP_eq_zero] at hcount
      exact hcount i hi hmarked
    · rw [(h.code i hi).2] at hmarked
      cases hmarked
  · intro hfailed
    have hpos : 0 < block.errorComments.countP fun i => isMarked i.render.toList := by
      rw [block.countP_isMarked_errorComments, if_pos hfailed]
      exact Nat.one_pos
    rcases List.countP_pos_iff.mp hpos with ⟨i, hi, hmarked⟩
    exact ⟨i, List.mem_append_left _ (List.mem_append_right _ hi), hmarked⟩

end Block

/-- The marks of a listing are those of its blocks. -/
theorem countP_isMarked_lines (echo : Bool) {blocks : List Block}
    (h : ∀ block ∈ blocks, block.Clear) :
    (Text.lines (renderText echo blocks)).countP isMarked =
      (blocks.flatMap (Block.listing echo)).countP fun i => isMarked i.render.toList := by
  have hlines : ∀ line ∈ (blocks.flatMap (Block.listing echo)).map Instruction.render,
      '\n' ∉ line.toList := by
    intro line hline
    rcases List.mem_map.mp hline with ⟨i, hi, rfl⟩
    rcases List.mem_flatMap.mp hi with ⟨block, hblock, hi⟩
    exact (h block hblock).newLine_not_mem echo i hi
  rw [renderText, Text.lines_unlines_chomp _ hlines, List.map_map, List.countP_map]
  refine List.countP_congr fun i _ => ?_
  simp only [Function.comp_apply, isMarked_chomp]

/-- Without the source there are as many marks as blocks that failed. -/
theorem countP_isMarked_blocks {blocks : List Block} (h : ∀ block ∈ blocks, block.Clear) :
    ((blocks.flatMap (Block.listing false)).countP fun i => isMarked i.render.toList) =
      blocks.countP Block.isError := by
  induction blocks with
  | nil => rfl
  | cons block blocks ih =>
      rw [List.forall_mem_cons] at h
      rw [List.flatMap_cons, List.countP_append, Block.countP_isMarked_listing h.1, ih h.2,
        List.countP_cons, Nat.add_comm]

section Steps

variable {options : Options}

/-- Plain text is on one line and is not marked. -/
theorem clear_of_plain {line : List Char} (h : Text.Plain line) :
    '\n' ∉ line ∧ isMarked line = false := by
  refine ⟨fun hmem => absurd (h _ hmem).1 (by decide), isMarked_eq_false ?_⟩
  intro hhead
  exact (h '/' (List.mem_of_head? hhead)).2 rfl

/-- The code of a line keeps to its lines and is not marked. -/
theorem Lowers.clear {ctx ctx' : Context} {command : Command} {code : List Instruction}
    (h : Lowers options ctx command code ctx')
    (hnames : ∀ name, command.name? = some name → isName name = true)
    (hunit : '\n' ∉ ctx.unit.toList)
    (hfunction : ∀ name, ctx.function? = some name → isName name = true) :
    ∀ i ∈ code, '\n' ∉ i.render.toList ∧ isMarked i.render.toList = false := by
  intro i hi
  rcases h.legible_or_static hnames hfunction i hi with hlegible | ⟨index, rfl⟩
  · exact clear_of_plain (Instruction.plain_render hlegible (h.isSome_statement? i hi))
  · -- A static variable shows the name of its unit behind an at sign.
    have hlist : (Instruction.atSymbol (ctx.staticSymbol index)).render.toList =
        '@' :: (ctx.unit.toList ++ '.' :: (Word.numeral index).toList) := by
      simp [Instruction.atSymbol, Instruction.render, Address.render, Context.staticSymbol]
    rw [hlist]
    have hnumeral : '\n' ∉ (Word.numeral index).toList := newLine_not_mem_repr _
    exact ⟨by simpa [hunit] using hnumeral, isMarked_eq_false (by simp)⟩

/-- Compiling an entry gives a clear block. -/
theorem Compiles.clear {names names' : Names} {entry : Entry} {block : Block}
    {messages : List Diagnostic} (h : Compiles options names entry block messages names')
    (hunit : '\n' ∉ entry.location.unit.toList) (hread : entry.Read) : block.Clear := by
  have hsource := h.newLine_not_mem_source hread
  cases h with
  | start hmint =>
      rename_i unit label ctx
      have hlegible := legible_bootstrap (Context.isName_mintReturn (by decide) hmint)
      have hcode : ∀ i ∈ Lowering.bootstrap label, i.statement?.isSome = true :=
        List.all_eq_true.mp rfl
      have hecho : isMarked (Instruction.comment "bootstrap").render.toList = false := by decide
      refine { source := hsource, unit := hunit, payload := nofun, code := ?_, echo := ?_ }
      · intro i hi
        exact clear_of_plain (Instruction.plain_render (hlegible i hi) (hcode i hi))
      · intro hmarked
        cases hecho.symm.trans hmarked
  | refused hresult =>
      exact
        { source := hsource, unit := hunit,
          payload := Command.oneLine_of_parse (hread.result.symm.trans hresult),
          code := fun i hi => absurd hi List.not_mem_nil, echo := fun _ => rfl }
  | lowered hresult hformed hlower =>
      rename_i l command code ctx
      have hplace := command.place_declareIn options (l.context names)
      refine
        { source := hsource, unit := hunit, payload := nofun, code := ?_, echo := ?_ }
      · exact (lowers_of_lower hlower).clear hformed.names (hplace.1 ▸ hunit)
          fun name hname => hread.function name (hplace.2.symm.trans hname)
      · -- The line is a command, so it does not look like a mark.
        intro hmarked
        have hparse : Command.parse l.parsed.text = .error (.unknownCommand "ERROR") :=
          Command.parse_of_isMarked hmarked
        rw [hread.result, hparse] at hresult
        cases hresult

end Steps

section Runs

variable {options : Options} {names names' : Names} {entries : List Entry} {blocks : List Block}
  {messages : List Diagnostic}

/-- Every block of a trace is clear. -/
theorem Trace.clear (h : Trace options names entries blocks messages names')
    (hentries : ∀ entry ∈ entries, '\n' ∉ entry.location.unit.toList ∧ entry.Read) :
    ∀ block ∈ blocks, block.Clear := by
  induction h with
  | nil names => nofun
  | cons hstep _ ih =>
      rw [List.forall_mem_cons] at hentries ⊢
      exact ⟨hstep.clear hentries.1.1 hentries.1.2, ih hentries.2⟩

/-- The errors of a trace are counted by its failed blocks. -/
theorem Trace.countP_isError (h : Trace options names entries blocks messages names') :
    Log.tally .error messages = blocks.countP Block.isError := by
  rw [Log.tally, List.countP_eq_length_filter, h.errors, List.length_filterMap_eq_countP]
  exact List.countP_congr fun block _ => by rw [Block.isError_eq]

end Runs

/-- Every block of a program is clear if the names of its units are. -/
theorem clear_of_compileProgram {options : Options} {units : List (String × String)}
    {compilation : Compilation} (hunits : ∀ unit ∈ units, '\n' ∉ unit.1.toList)
    (h : compileProgram options units = .ok compilation) :
    ∀ block ∈ compilation.blocks.toList, block.Clear := by
  rcases (trace_of_compileProgram h).1 with ⟨names, htrace⟩
  refine htrace.clear ?_
  intro entry hentry
  rcases read_of_mem_programEntries hentry with ⟨hread, unit, hunit, heq⟩
  exact ⟨heq ▸ hunits unit hunit, hread⟩

/-- The marks in a listing are a reliable sign of errors. If no unit has a line
    feed in its name, there is a marked line in the listing of a program if and
    only if the log has errors, whether the source is shown or not, and if it is
    not shown there are as many marked lines as errors. -/
theorem marked_iff_hasErrors {options : Options} {units : List (String × String)}
    {compilation : Compilation} (hunits : ∀ unit ∈ units, '\n' ∉ unit.1.toList)
    (h : compileProgram options units = .ok compilation) :
    ((∃ line ∈ Text.lines compilation.text, isMarked line = true) ↔
      compilation.log.hasErrors = true) ∧
    (options.echoSource = false →
      (Text.lines compilation.text).countP isMarked = compilation.log.errors.value) := by
  rcases trace_of_compileProgram h with ⟨⟨names, htrace⟩, hecho⟩
  have hclear := clear_of_compileProgram hunits h
  have hmarks := countP_isMarked_lines compilation.echoSource hclear
  have herrors : compilation.log.errors.value = compilation.blocks.toList.countP Block.isError :=
    (counted_of_compileProgram h .error).trans htrace.countP_isError
  constructor
  · -- Either side says that a block failed.
    have hfailed : compilation.log.hasErrors = true ↔
        ∃ block ∈ compilation.blocks.toList, block.isError = true := by
      rw [Log.hasErrors, decide_eq_true_eq, herrors, List.countP_pos_iff]
    rw [hfailed, ← List.countP_pos_iff, Compilation.text, hmarks, List.countP_pos_iff]
    constructor
    · rintro ⟨i, hi, hmarked⟩
      rcases List.mem_flatMap.mp hi with ⟨block, hblock, hi⟩
      exact ⟨block, hblock, (Block.exists_isMarked_listing (hclear block hblock) _).mp
        ⟨i, hi, hmarked⟩⟩
    · rintro ⟨block, hblock, hfailed⟩
      rcases (Block.exists_isMarked_listing (hclear block hblock) compilation.echoSource).mpr
        hfailed with ⟨i, hi, hmarked⟩
      exact ⟨i, List.mem_flatMap.mpr ⟨block, hblock, hi⟩, hmarked⟩
  · intro hquiet
    rw [hquiet] at hecho
    rw [hecho] at hmarks
    rw [Compilation.text, hecho, hmarks, herrors, countP_isMarked_blocks hclear]

/-- Lines that look like marks or quote them, in units with names that do. Two of
    the lines are refused, and only one of them makes a mark of its own. -/
def forgedUnits : List (String × String) :=
  [("// ERROR ", "push static 1 // ERROR here\n// ERROR there\nERROR Main:1: cannot\r\n"),
   ("Main\r", "ERROR\nlabel ERROR\ngoto ERROR // ERROR ")]

/-- The source is shown, or it is not. -/
def forgedOptions (echo : Bool) : Options :=
  { echoSource := echo, scopeLabels := false, bootstrap := true }

theorem marked_iff_hasErrors_forgedUnits :
    (∀ unit ∈ forgedUnits, '\n' ∉ unit.1.toList) ∧
    (∃ compilation, compileProgram (forgedOptions true) forgedUnits = .ok compilation ∧
      compilation.log.hasErrors = true ∧
      ∃ line ∈ Text.lines compilation.text, isMarked line = true) ∧
    ∃ compilation, compileProgram (forgedOptions false) forgedUnits = .ok compilation ∧
      compilation.log.errors.value = 2 ∧
      (Text.lines compilation.text).countP isMarked = 2 := by
  have hunits : ∀ unit ∈ forgedUnits, '\n' ∉ unit.1.toList :=
    List.all_iff_forall_prop.mp (by decide)
  have hlog : ∀ echo, (compileProgram (forgedOptions echo) forgedUnits).toOption.any
      (fun compilation => compilation.log.errors.value = 2) = true := by decide +kernel
  refine ⟨hunits, ?_, ?_⟩
  · rcases exists_ok_of_any (hlog true) with ⟨compilation, hcompile, herrors⟩
    have hhas : compilation.log.hasErrors = true := by
      rw [Log.hasErrors, of_decide_eq_true herrors]
      rfl
    exact ⟨compilation, hcompile, hhas, (marked_iff_hasErrors hunits hcompile).1.mpr hhas⟩
  · rcases exists_ok_of_any (hlog false) with ⟨compilation, hcompile, herrors⟩
    have hcount := of_decide_eq_true herrors
    exact ⟨compilation, hcompile, hcount,
      ((marked_iff_hasErrors hunits hcompile).2 rfl).trans hcount⟩

end HackVM
