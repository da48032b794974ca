import HackVM.Proofs.Listing
import HackVM.Proofs.Program

/-!
# What Reading Guarantees

Facts about lines and commands that come from a text.

A command can be built from any names and numbers, but one that was read is
well formed: its name is a name, its numbers keep to their bounds, and it does
not store into a constant. A line that was refused is harmless in another way:
everything its message quotes is a word of the line, so the message is one line
of text whatever stood there.

## Main definitions

* `Command.WellFormed`: What holds of every command that was read.
* `CommandError.OneLine`: No text that a message quotes has a line feed.
* `Line.Read`, `Entry.Read`: What holds of every line and every entry of a
  program.

## Theorems

* `Text.newLine_induction`: Induction along the lines of a text.
* `Text.newLine_not_mem_of_mem_lines`: A line of a text has no line feed.
* `Text.not_isBlank_of_mem_words`: A word has no blanks.
* `Command.wellFormed_of_parse`: A command that was read is well formed.
* `Command.oneLine_of_parse`: A line that was refused has a message of one line.
* `read_of_mem_placeLines`, `read_of_mem_programLines`, `read_of_mem_programEntries`:
  What is known of the lines of a unit and of a program, and of its entries.
* `isName_of_mem_placeLines`, `isName_of_mem_programLines`: The same where units
  have names.
-/

namespace HackVM

namespace Text

/-- A piece has at most one line feed, and that at its end. -/
theorem mem_pieces {cs piece : List Char} (h : piece ∈ pieces cs) :
    ∃ body, '\n' ∉ body ∧ (piece = body ∨ piece = body ++ ['\n']) := by
  induction cs generalizing piece with
  | nil => cases h
  | cons c cs ih =>
      have hcons : piece ∈ consPiece c (pieces cs) := h
      cases hpieces : pieces cs with
      | nil =>
          rw [hpieces] at hcons
          rw [List.mem_singleton.mp hcons]
          by_cases hc : c = '\n'
          · exact ⟨[], List.not_mem_nil, Or.inr (by rw [hc]; rfl)⟩
          · exact ⟨[c], by simpa using Ne.symm hc, Or.inl rfl⟩
      | cons first rest =>
          rw [hpieces] at hcons ih
          rw [consPiece] at hcons
          by_cases hc : c = '\n'
          · rw [if_pos hc] at hcons
            rcases List.mem_cons.mp hcons with rfl | hmem
            · exact ⟨[], List.not_mem_nil, Or.inr (by rw [hc]; rfl)⟩
            · exact ih hmem
          · rw [if_neg hc] at hcons
            rcases List.mem_cons.mp hcons with rfl | hmem
            · -- The character joins the first piece, in front of its line feed.
              rcases ih List.mem_cons_self with ⟨body, hbody, hpiece⟩
              refine ⟨c :: body, by simpa [hbody] using Ne.symm hc, ?_⟩
              rcases hpiece with rfl | rfl
              · exact Or.inl rfl
              · exact Or.inr rfl
            · exact ih (List.mem_cons_of_mem first hmem)

/-- Text without a line feed has no line ending to drop. -/
theorem chomp_of_not_mem {line : List Char} (h : '\n' ∉ line) : chomp line = line := by
  unfold chomp
  split
  · next rest hrest => exact absurd (List.mem_reverse.mp (hrest ▸ List.mem_cons_self)) h
  · next rest _ hrest => exact absurd (List.mem_reverse.mp (hrest ▸ List.mem_cons_self)) h
  · rfl

/-- Text without a line feed is one piece. -/
theorem pieces_of_not_mem {line : List Char} (h : '\n' ∉ line) (hne : line ≠ []) :
    pieces line = [line] := by
  induction line with
  | nil => exact absurd rfl hne
  | cons c cs ih =>
      have hc : c ≠ '\n' := fun hc => h (hc ▸ List.mem_cons_self)
      show consPiece c (pieces cs) = [c :: cs]
      by_cases hnil : cs = []
      · rw [hnil]
        rfl
      · rw [ih (fun hcs => h (List.mem_cons_of_mem c hcs)) hnil, consPiece, if_neg hc]

/-- A text is a line without a line feed, or such a line and a line feed in front
    of a text. -/
@[elab_as_elim]
theorem newLine_induction {motive : List Char → Prop}
    (last : ∀ line, '\n' ∉ line → motive line)
    (line : ∀ line rest, '\n' ∉ line → motive rest → motive (line ++ '\n' :: rest))
    (cs : List Char) : motive cs := by
  induction hlength : cs.length using Nat.strong_induction_on generalizing cs with
  | _ n ih =>
      by_cases hmem : '\n' ∈ cs
      · rcases List.eq_append_cons_of_mem hmem with ⟨first, rest, rfl, hfirst⟩
        refine line first rest hfirst (ih rest.length ?_ rest rfl)
        rw [← hlength, List.length_append, List.length_cons]
        omega
      · exact last cs hmem

/-- A line of a text has no line feed. -/
theorem newLine_not_mem_of_mem_lines {text : String} {line : List Char}
    (h : line ∈ lines text) : '\n' ∉ line := by
  rcases List.mem_map.mp h with ⟨piece, hpiece, rfl⟩
  rcases mem_pieces hpiece with ⟨body, hbody, rfl | rfl⟩
  · rwa [chomp_of_not_mem hbody]
  · intro hmem
    rcases chomp_newLine_cases body with heq | heq
    · exact hbody (heq ▸ hmem)
    · exact hbody (heq ▸ List.mem_append_left _ hmem)

theorem mem_of_mem_beforeComment {cs : List Char} {c : Char} (h : c ∈ beforeComment cs) :
    c ∈ cs := by
  fun_induction beforeComment cs with
  | case1 => exact h
  | case2 => cases h
  | case3 d rest _ ih =>
      rcases List.mem_cons.mp h with rfl | hmem
      · exact List.mem_cons_self
      · exact List.mem_cons_of_mem d (ih hmem)

theorem mem_of_mem_trim {cs : List Char} {c : Char} (h : c ∈ trim cs) : c ∈ cs := by
  unfold trim trimEnd trimStart at h
  have hreverse := (List.dropWhile_sublist _).mem (List.mem_reverse.mp h)
  exact (List.dropWhile_sublist _).mem (List.mem_reverse.mp hreverse)

theorem OpenWords.mem_of_mem_close {s : OpenWords} {word : List Char} (h : word ∈ s.close) :
    word ∈ s.current :: s.complete := by
  unfold OpenWords.close at h
  split at h
  · exact List.mem_cons_of_mem _ h
  · exact h

/-- Words that are still being read have no blanks. -/
theorem not_isBlank_of_mem_foldr {cs word : List Char} :
    let s := cs.foldr OpenWords.cons { current := [], complete := [] }
    word ∈ s.current :: s.complete → ∀ c ∈ word, isBlank c = false := by
  induction cs generalizing word with
  | nil =>
      intro s hword c hc
      rw [List.mem_singleton.mp hword] at hc
      cases hc
  | cons d cs ih =>
      intro s hword c hc
      have hs : s = OpenWords.cons d (cs.foldr OpenWords.cons ⟨[], []⟩) := rfl
      rw [hs, OpenWords.cons] at hword
      by_cases hd : isBlank d = true
      · rw [if_pos hd] at hword
        rcases List.mem_cons.mp hword with rfl | hmem
        · cases hc
        · exact ih (OpenWords.mem_of_mem_close hmem) c hc
      · rw [if_neg hd] at hword
        rcases List.mem_cons.mp hword with rfl | hmem
        · rcases List.mem_cons.mp hc with rfl | hc
          · simpa using hd
          · exact ih List.mem_cons_self c hc
        · exact ih (List.mem_cons_of_mem _ hmem) c hc

/-- A word has no blanks. -/
theorem not_isBlank_of_mem_words {cs word : List Char} (h : word ∈ words cs) :
    ∀ c ∈ word, isBlank c = false :=
  not_isBlank_of_mem_foldr (OpenWords.mem_of_mem_close h)

end Text

/-- No text that the message quotes has a line feed. -/
def CommandError.OneLine (cause : CommandError) : Prop :=
  ∀ text ∈ cause.payload, '\n' ∉ text.toList

namespace Command

/-- The name that a command uses. -/
def name? : Command → Option String
  | .label name | .goto name | .ifGoto name | .function name _ | .call name _ => some name
  | _ => none

/-- What holds of every command that was read. -/
structure WellFormed (command : Command) : Prop where
  names : ∀ name, command.name? = some name → isName name = true
  bounds : command.checkBounds = .ok ()
  place : ∀ index, command ≠ .pop .constant index

section Operands

variable {keyword : String} {operands : List String}

theorem isName_of_readName {operand name : String} (h : readName operand = .ok name) :
    isName name = true := by
  unfold readName at h
  split at h
  · next hname =>
      cases h
      exact hname
  · cases h

theorem isName_of_readPlace {name : String} (h : readPlace keyword operands = .ok name) :
    isName name = true := by
  unfold readPlace at h
  split at h
  · exact isName_of_readName h
  · cases h

theorem isName_of_readNameCount {result : String × Word}
    (h : readNameCount keyword operands = .ok result) : isName result.1 = true := by
  unfold readNameCount at h
  split at h
  · split at h
    · next hname =>
        rcases map_eq_ok_iff.mp h with ⟨count, -, rfl⟩
        exact isName_of_readName hname
    · cases h
  · cases h

end Operands

/-- A name in a command that was read is a name, and a store has a place. -/
theorem isName_of_ofKeyword {keyword : String} {operands : List String} {command : Command}
    (h : ofKeyword keyword operands = .ok command) :
    (∀ name, command.name? = some name → isName name = true) ∧
      ∀ index, command ≠ .pop .constant index := by
  unfold ofKeyword at h
  split at h
  · rcases map_eq_ok_iff.mp h with ⟨⟨segment, index⟩, -, rfl⟩
    exact ⟨nofun, nofun⟩
  · rcases bind_eq_ok_iff.mp h with ⟨⟨segment, index⟩, -, hstore⟩
    cases segment with
    | constant => cases hstore
    | _ =>
        cases hstore
        exact ⟨nofun, nofun⟩
  iterate 3
    rcases map_eq_ok_iff.mp h with ⟨place, hplace, rfl⟩
    refine ⟨fun name hname => ?_, nofun⟩
    cases hname
    exact isName_of_readPlace hplace
  iterate 2
    rcases map_eq_ok_iff.mp h with ⟨result, hresult, rfl⟩
    refine ⟨fun name hname => ?_, nofun⟩
    cases hname
    exact isName_of_readNameCount hresult
  · rcases map_eq_ok_iff.mp h with ⟨operand, -, rfl⟩
    exact ⟨nofun, nofun⟩
  · split at h
    · rcases map_eq_ok_iff.mp h with ⟨operand, -, rfl⟩
      exact ⟨nofun, nofun⟩
    · cases h

/-- A command that was read is well formed. -/
theorem wellFormed_of_parse {line : String} {command : Command} (h : parse line = .ok command) :
    command.WellFormed := by
  unfold parse at h
  cases hwords : (Text.words line.toList).map String.ofList with
  | nil =>
      rw [hwords] at h
      cases h
  | cons keyword operands =>
      rw [hwords] at h
      rcases bind_eq_ok_iff.mp h with ⟨read, hread, hchecked⟩
      rcases map_eq_ok_iff.mp hchecked with ⟨_, hbounds, rfl⟩
      rcases isName_of_ofKeyword hread with ⟨hnames, hplace⟩
      exact ⟨hnames, hbounds, hplace⟩

section Causes

variable {keyword : String} {operands : List String} {cause : CommandError}
  (hkeyword : '\n' ∉ keyword.toList) (hoperands : ∀ operand ∈ operands, '\n' ∉ operand.toList)

theorem oneLine_of_readIndex {operand : String} (hoperand : '\n' ∉ operand.toList)
    (h : readIndex operand = .error cause) : cause.OneLine := by
  unfold readIndex at h
  split at h
  · cases h
  · cases h
    simpa [CommandError.OneLine, CommandError.payload] using hoperand

theorem oneLine_of_readName {operand : String} (hoperand : '\n' ∉ operand.toList)
    (h : readName operand = .error cause) : cause.OneLine := by
  unfold readName at h
  split at h
  · cases h
  · cases h
    simpa [CommandError.OneLine, CommandError.payload] using hoperand

include hkeyword

theorem oneLine_wrongOperandCount (expected found : Nat) :
    (CommandError.wrongOperandCount keyword expected found).OneLine := by
  simpa [CommandError.OneLine, CommandError.payload] using hkeyword

theorem oneLine_of_readNothing (h : readNothing keyword operands = .error cause) :
    cause.OneLine := by
  unfold readNothing at h
  split at h
  · cases h
  · cases h
    exact oneLine_wrongOperandCount hkeyword _ _

include hoperands

theorem oneLine_of_readPlace (h : readPlace keyword operands = .error cause) :
    cause.OneLine := by
  unfold readPlace at h
  split at h
  · exact oneLine_of_readName (hoperands _ List.mem_cons_self) h
  · cases h
    exact oneLine_wrongOperandCount hkeyword _ _

theorem oneLine_of_readNameCount (h : readNameCount keyword operands = .error cause) :
    cause.OneLine := by
  unfold readNameCount at h
  split at h
  · split at h
    · exact oneLine_of_readIndex (hoperands _ (by simp)) (map_eq_error_iff.mp h)
    · next hname =>
        cases h
        exact oneLine_of_readName (hoperands _ List.mem_cons_self) hname
  · cases h
    exact oneLine_wrongOperandCount hkeyword _ _

theorem oneLine_of_readSegmentIndex (h : readSegmentIndex keyword operands = .error cause) :
    cause.OneLine := by
  unfold readSegmentIndex at h
  split at h
  · split at h
    · exact oneLine_of_readIndex (hoperands _ (by simp)) (map_eq_error_iff.mp h)
    · cases h
      have hsegment := hoperands _ List.mem_cons_self
      simpa [CommandError.OneLine, CommandError.payload] using ⟨hkeyword, hsegment⟩
  · cases h
    exact oneLine_wrongOperandCount hkeyword _ _

/-- A message about a keyword and its operands quotes nothing else. -/
theorem oneLine_of_ofKeyword (h : ofKeyword keyword operands = .error cause) :
    cause.OneLine := by
  unfold ofKeyword at h
  split at h
  · exact oneLine_of_readSegmentIndex hkeyword hoperands (map_eq_error_iff.mp h)
  · cases hread : readSegmentIndex "pop" operands with
    | error cause' =>
        rw [hread] at h
        cases h
        exact oneLine_of_readSegmentIndex hkeyword hoperands hread
    | ok result =>
        rw [hread] at h
        rcases result with ⟨segment, index⟩
        cases segment with
        | constant =>
            cases h
            exact nofun
        | _ => cases h
  iterate 3 exact oneLine_of_readPlace hkeyword hoperands (map_eq_error_iff.mp h)
  iterate 2 exact oneLine_of_readNameCount hkeyword hoperands (map_eq_error_iff.mp h)
  · exact oneLine_of_readNothing hkeyword (map_eq_error_iff.mp h)
  · split at h
    · exact oneLine_of_readNothing hkeyword (map_eq_error_iff.mp h)
    · cases h
      simpa [CommandError.OneLine, CommandError.payload] using hkeyword

omit hkeyword hoperands in
/-- A message about bounds quotes a fixed word. -/
theorem oneLine_of_checkBounds {command : Command} (h : command.checkBounds = .error cause) :
    cause.OneLine := by
  have hindex : ∀ {what : String} {index max : Word}, '\n' ∉ what.toList →
      checkIndex what index max = .error cause → cause.OneLine := by
    intro what index max hwhat h
    unfold checkIndex at h
    split at h
    · cases h
    · cases h
      simpa [CommandError.OneLine, CommandError.payload] using hwhat
  have hsegment : ∀ {segment : Segment} {index : Word},
      checkSegment segment index = .error cause → cause.OneLine := by
    intro segment index h
    unfold checkSegment at h
    split at h
    · exact hindex (by cases segment <;> decide) h
    · cases h
  cases command with
  | push segment index => exact hsegment h
  | pop segment index => exact hsegment h
  | call name args => exact hindex (by decide) h
  | _ => cases h

end Causes

/-- A line that was refused has a message of one line. -/
theorem oneLine_of_parse {line : String} {cause : CommandError}
    (h : parse line = .error cause) : cause.OneLine := by
  have hwords : ∀ word ∈ (Text.words line.toList).map String.ofList, '\n' ∉ word.toList := by
    intro word hword hmem
    rcases List.mem_map.mp hword with ⟨cs, hcs, rfl⟩
    rw [String.toList_ofList] at hmem
    have hblank := Text.not_isBlank_of_mem_words hcs _ hmem
    exact absurd hblank (by decide)
  unfold parse at h
  cases hlist : (Text.words line.toList).map String.ofList with
  | nil =>
      rw [hlist] at h
      cases h
      simp [CommandError.OneLine, CommandError.payload]
  | cons keyword operands =>
      rw [hlist] at h hwords
      rw [ofWords] at h
      cases hread : ofKeyword keyword operands with
      | error cause' =>
          rw [hread] at h
          cases h
          exact oneLine_of_ofKeyword (hwords _ List.mem_cons_self)
            (fun operand hoperand => hwords _ (List.mem_cons_of_mem _ hoperand)) hread
      | ok command =>
          rw [hread] at h
          exact oneLine_of_checkBounds (map_eq_error_iff.mp h)

end Command

section Lines

/-- A line of the source is one line. -/
theorem newLine_not_mem_of_mem_sourceLines {text : String} {source : SourceLine}
    (h : source ∈ sourceLines text) : '\n' ∉ source.text.toList := by
  rcases List.mem_filterMap.mp h with ⟨⟨line, number⟩, hline, hsome⟩
  simp only [SourceLine.ofNumbered?] at hsome
  split at hsome
  · cases hsome
  · cases hsome
    have hmem : line ∈ Text.lines text := List.fst_mem_of_mem_zipIdx hline
    intro hnewLine
    have hcode : '\n' ∈ codePart line := by
      simpa [String.toList_ofList] using hnewLine
    exact Text.newLine_not_mem_of_mem_lines hmem
      (Text.mem_of_mem_beforeComment (Text.mem_of_mem_trim hcode))

/-- A line that was parsed is one line, and its result is what it reads as. -/
theorem parse_of_mem_parseLines {text : String} {parsed : ParsedLine}
    (h : parsed ∈ parseLines text) :
    parsed.result = Command.parse parsed.text ∧ '\n' ∉ parsed.text.toList := by
  rcases List.mem_map.mp h with ⟨source, hsource, rfl⟩
  exact ⟨rfl, newLine_not_mem_of_mem_sourceLines hsource⟩

/-- What is known of the lines of a unit: the enclosing function, too, was
    begun on one of them. -/
theorem mem_placeLines {unit : String} {function? : Option String} {lines : List ParsedLine}
    {l : Line} (h : l ∈ placeLines unit function? lines) :
    l.unit = unit ∧ l.parsed ∈ lines ∧
      (l.function? = function? ∨ ∃ parsed ∈ lines, parsed.begins? = l.function?) := by
  induction lines generalizing function? with
  | nil => cases h
  | cons parsed lines ih =>
      rcases List.mem_cons.mp h with rfl | hmem
      · exact ⟨rfl, List.mem_cons_self, Or.inl rfl⟩
      · rcases ih hmem with ⟨hunit, hparsed, hfunction⟩
        refine ⟨hunit, List.mem_cons_of_mem parsed hparsed, ?_⟩
        rcases hfunction with hfunction | ⟨earlier, hearlier, hbegins⟩
        · cases hbegins : parsed.begins? with
          | none =>
              rw [hbegins, Option.none_or] at hfunction
              exact Or.inl hfunction
          | some name =>
              rw [hbegins, Option.some_or] at hfunction
              exact Or.inr ⟨parsed, List.mem_cons_self, hbegins.trans hfunction.symm⟩
        · exact Or.inr ⟨earlier, List.mem_cons_of_mem parsed hearlier, hbegins⟩

/-- What is known of every line of a program, whatever its unit is called: it was
    read, and the function that encloses it has a name. -/
structure Line.Read (l : Line) : Prop where
  function : ∀ name, l.function? = some name → isName name = true
  result : l.parsed.result = Command.parse l.parsed.text
  text : '\n' ∉ l.parsed.text.toList

/-- A line of a unit was read, and it is in a function with a name if the first
    line is. -/
theorem read_of_mem_placeLines {unit text : String} {function? : Option String} {l : Line}
    (hfunction : ∀ name, function? = some name → isName name = true)
    (h : l ∈ placeLines unit function? (parseLines text)) : l.Read := by
  rcases mem_placeLines h with ⟨-, hparsed, hplace⟩
  refine ⟨?_, (parse_of_mem_parseLines hparsed).1, (parse_of_mem_parseLines hparsed).2⟩
  intro name hsome
  rcases hplace with hfirst | ⟨parsed, hmem, hbegins⟩
  · exact hfunction name (hfirst.symm.trans hsome)
  · -- A function that was begun has a name because its line was read.
    have hread := (parse_of_mem_parseLines hmem).1
    rw [hsome] at hbegins
    unfold ParsedLine.begins? at hbegins
    split at hbegins
    · next command hresult =>
        refine (Command.wellFormed_of_parse (hread.symm.trans hresult)).names name ?_
        cases command with
        | function name' locals => exact hbegins
        | _ => cases hbegins
    · cases hbegins

/-- A line of a program was read, in one of its units. -/
theorem read_of_mem_programLines {units : List (String × String)} {l : Line}
    (h : l ∈ programLines units) : l.Read ∧ ∃ unit ∈ units, l.unit = unit.1 := by
  rcases List.mem_flatMap.mp h with ⟨unit, hunit, hline⟩
  refine ⟨read_of_mem_placeLines ?_ hline, unit, hunit, (mem_placeLines hline).1⟩
  nofun

/-- What holds of every entry of a program, whatever its unit is called. -/
def Entry.Read : Entry → Prop
  | .start _ => True
  | .line l => l.Read

/-- An entry of a program was read, in one of its units. -/
theorem read_of_mem_programEntries {options : Options} {units : List (String × String)}
    {entry : Entry} (h : entry ∈ programEntries options units) :
    entry.Read ∧ ∃ unit ∈ units, entry.location.unit = unit.1 := by
  cases entry with
  | start unit =>
      rcases start_mem_programEntries h with ⟨u, hu, heq⟩
      exact ⟨trivial, u, hu, heq.symm⟩
  | line l => exact read_of_mem_programLines (line_mem_programEntries h)

/-- A line of a unit with a name is in a function with a name, and what it holds
    was read. -/
theorem isName_of_mem_placeLines {unit text : String} {function? : Option String} {l : Line}
    (hunit : isName unit = true) (hfunction : ∀ name, function? = some name → isName name = true)
    (h : l ∈ placeLines unit function? (parseLines text)) :
    isName l.unit = true ∧ (∀ name, l.function? = some name → isName name = true) ∧
      l.parsed.result = Command.parse l.parsed.text ∧ '\n' ∉ l.parsed.text.toList := by
  have hread := read_of_mem_placeLines hfunction h
  exact ⟨(mem_placeLines h).1 ▸ hunit, hread.function, hread.result, hread.text⟩

/-- The same for a line of a program with names. -/
theorem isName_of_mem_programLines {units : List (String × String)} {l : Line}
    (hunits : ∀ unit ∈ units, isName unit.1 = true) (h : l ∈ programLines units) :
    isName l.unit = true ∧ (∀ name, l.function? = some name → isName name = true) ∧
      l.parsed.result = Command.parse l.parsed.text ∧ '\n' ∉ l.parsed.text.toList := by
  rcases read_of_mem_programLines h with ⟨hread, unit, hunit, heq⟩
  exact ⟨heq ▸ hunits unit hunit, hread.function, hread.result, hread.text⟩

end Lines

end HackVM
