import HackVM.Proofs.FreeLayout

/-!
# Clean Lines

What reading leaves of a text, and that it leaves nothing to be done again.

A text is cut at its line feeds, and of each line the code is kept: what stands
before the first two slashes in a row, without the white space around it. Both parts
of this are said here by what they leave, and not by how it is found. The part before
a comment ends where two slashes stand for the first time, so that the first of the
two does not meet a slash in front of it. The white space around a text is white, and
what it encloses neither starts nor ends with white space. Each of these says what is
left in one way only, and so the code of a line can be found by any means.

Carriage returns need no care. A line feed may have one in front of it that belongs
to the ending, but at the end of a line it is white space or part of a comment, and
is not code in either case.

The code of a line has no comment, no line feed and no white space around it. It is
its own code, therefore, and the codes of a text, each on a line of its own, are read
back as they are.

## Main definitions

* `Text.numberedLines`: The text cut at its line feeds.
* `Text.IsTight`, `Text.Encloses`: Text without white space around it.
* `Text.HasComment`, `Text.Uncommented`: Two slashes in a row, and what stands before
  them.
* `Text.HasCode`: The code of a line.

## Theorems

* `Text.encloses_iff`: Trimming finds what the white space encloses.
* `Text.uncommented_iff`: Cutting the comment leaves what stands before it.
* `Text.hasCode_iff`: The code of a line is found.
* `sourceLines_eq_filterMap`: The line endings make no difference to the code.
* `codePart_of_clean`: Clean text is its own code.
* `sourceLines_clean`: The lines that are read are clean, and stay as they are.
-/

namespace HackVM

namespace Text

/-- The lines of a text with their numbers, the text being cut at its line feeds. -/
def numberedLines (text : String) : List (List Char × Nat) :=
  (text.toList.splitOn '\n').zipIdx 1

section WhiteSpace

variable {cs core : List Char}

/-- The text neither starts nor ends with white space. -/
def IsTight (cs : List Char) : Prop :=
  (∀ c ∈ cs.head?, c.toNat ∉ whiteSpace) ∧ ∀ c ∈ cs.getLast?, c.toNat ∉ whiteSpace

/-- The text is this one and white space around it. -/
def Encloses (cs core : List Char) : Prop :=
  IsTight core ∧ ∃ front back, cs = front ++ core ++ back ∧
    (∀ c ∈ front, c.toNat ∈ whiteSpace) ∧ ∀ c ∈ back, c.toNat ∈ whiteSpace

/-- Trimming leaves text without white space around it. -/
theorem isTight_trim (cs : List Char) : IsTight (trim cs) := by
  have hvisible : ∀ {ds : List Char} {c : Char}, c ∈ (trimStart ds).head? →
      c.toNat ∉ whiteSpace := by
    intro ds c hc
    rcases List.head?_eq_some_iff.mp hc with ⟨rest, hrest⟩
    exact isBlank_eq_false_iff.mp (head_trimStart_not_blank hrest)
  constructor
  · intro c hc
    -- What is cut off at the end leaves the start as it is.
    have hstart : trim cs <+: trimStart cs := by
      rw [trim, trimEnd, ← List.reverse_suffix, List.reverse_reverse]
      exact List.dropWhile_suffix isBlank
    rcases hstart with ⟨back, hback⟩
    have hmem : c ∈ (trimStart cs).head? := by
      rw [← hback, List.head?_append, Option.mem_def.mp hc]
      rfl
    exact hvisible hmem
  · intro c hc
    rw [trim, trimEnd, List.getLast?_reverse] at hc
    exact hvisible hc

/-- Nothing is dropped from a text that starts with a visible character. -/
theorem dropWhile_of_head? (h : ∀ c ∈ cs.head?, isBlank c = false) :
    cs.dropWhile isBlank = cs := by
  cases cs with
  | nil => rfl
  | cons c cs =>
      refine List.dropWhile_cons_of_neg ?_
      rw [h c rfl]
      exact Bool.false_ne_true

/-- Trimming finds what the white space encloses. -/
theorem trim_of_encloses (h : Encloses cs core) : trim cs = core := by
  rcases h with ⟨⟨hhead, hlast⟩, front, back, rfl, hfront, hback⟩
  have hdropFront : ∀ rest, (front ++ rest).dropWhile isBlank = rest.dropWhile isBlank :=
    fun rest => List.dropWhile_append_of_pos fun c hc => isBlank_iff.mpr (hfront c hc)
  have hdropBack : ∀ rest, (back.reverse ++ rest).dropWhile isBlank = rest.dropWhile isBlank :=
    fun rest => List.dropWhile_append_of_pos fun c hc =>
      isBlank_iff.mpr (hback c (List.mem_reverse.mp hc))
  rw [trim, trimStart, List.append_assoc, hdropFront]
  by_cases hnil : core = []
  · -- There is white space only, and the first cut takes all of it.
    have hblank : back.dropWhile isBlank = [] :=
      List.dropWhile_eq_nil_iff.mpr fun c hc => isBlank_iff.mpr (hback c hc)
    rw [hnil, List.nil_append, hblank]
    rfl
  · have hstart : ∀ c ∈ (core ++ back).head?, isBlank c = false := by
      intro c hc
      rw [List.head?_append_of_ne_nil _ hnil] at hc
      exact isBlank_eq_false_iff.mpr (hhead c hc)
    have hend : ∀ c ∈ core.reverse.head?, isBlank c = false := by
      intro c hc
      rw [List.head?_reverse] at hc
      exact isBlank_eq_false_iff.mpr (hlast c hc)
    rw [dropWhile_of_head? hstart, trimEnd, List.reverse_append, hdropBack,
      dropWhile_of_head? hend, List.reverse_reverse]

/-- The text that white space encloses is the trimmed one, and no other. -/
theorem encloses_iff : Encloses cs core ↔ core = trim cs := by
  constructor
  · intro h
    exact (trim_of_encloses h).symm
  · rintro rfl
    rcases exists_trim cs with ⟨front, back, hcs, hfront, hback⟩
    exact ⟨isTight_trim cs, front, back, hcs, fun c hc => isBlank_iff.mp (hfront c hc),
      fun c hc => isBlank_iff.mp (hback c hc)⟩

end WhiteSpace

section Comments

variable {line before rest : List Char} {c : Char}

/-- Two slashes stand in a row. -/
def HasComment (cs : List Char) : Prop :=
  ['/', '/'] <:+: cs

/-- What stands before the first two slashes in a row, or all if there are none. -/
def Uncommented (line before : List Char) : Prop :=
  (before = line ∧ ¬HasComment line) ∨
    ∃ comment, line = before ++ '/' :: '/' :: comment ∧ ¬HasComment (before ++ ['/'])

theorem hasComment_cons :
    HasComment (c :: rest) ↔ (c = '/' ∧ rest.head? = some '/') ∨ HasComment rest := by
  have hfirst : ['/', '/'] <+: c :: rest ↔ c = '/' ∧ rest.head? = some '/' := by
    cases rest with
    | nil => simp
    | cons d rest => simp [List.cons_prefix_cons, eq_comm]
  rw [HasComment, List.infix_cons_iff, hfirst, HasComment]

/-- The first character is the same whether or not the comment goes on. -/
theorem head?_append_slash (cs comment : List Char) :
    (cs ++ ['/']).head? = (cs ++ '/' :: '/' :: comment).head? := by
  cases cs <;> rfl

/-- A character that starts no comment stands before the comment. -/
theorem uncommented_cons (h : ¬(c = '/' ∧ rest.head? = some '/')) :
    Uncommented (c :: rest) before ↔ ∃ tail, before = c :: tail ∧ Uncommented rest tail := by
  constructor
  · rintro (⟨rfl, hnone⟩ | ⟨comment, hline, hfirst⟩)
    · rw [hasComment_cons, not_or] at hnone
      exact ⟨rest, rfl, Or.inl ⟨rfl, hnone.2⟩⟩
    · cases before with
      | nil =>
          cases hline
          exact absurd ⟨rfl, rfl⟩ h
      | cons d tail =>
          cases hline
          rw [List.cons_append, hasComment_cons, not_or] at hfirst
          exact ⟨tail, rfl, Or.inr ⟨comment, rfl, hfirst.2⟩⟩
  · rintro ⟨tail, rfl, ⟨rfl, hnone⟩ | ⟨comment, rfl, hfirst⟩⟩
    · exact Or.inl ⟨rfl, hasComment_cons.not.mpr (not_or.mpr ⟨h, hnone⟩)⟩
    · refine Or.inr ⟨comment, rfl, ?_⟩
      rw [List.cons_append, hasComment_cons, not_or, head?_append_slash tail comment]
      exact ⟨h, hfirst⟩

/-- Cutting the comment leaves what stands before it, and nothing else does. -/
theorem uncommented_iff : Uncommented line before ↔ before = beforeComment line := by
  fun_induction beforeComment line generalizing before with
  | case1 =>
      constructor
      · rintro (⟨rfl, -⟩ | ⟨comment, hline, -⟩)
        · rfl
        · exact absurd hline (by simp)
      · rintro rfl
        exact Or.inl ⟨rfl, by simp [HasComment]⟩
  | case2 rest =>
      have hslashes : HasComment ('/' :: '/' :: rest) := hasComment_cons.mpr (Or.inl ⟨rfl, rfl⟩)
      constructor
      · rintro (⟨-, hnone⟩ | ⟨comment, hline, hfirst⟩)
        · exact absurd hslashes hnone
        · cases before with
          | nil => rfl
          | cons d tail =>
              -- A slash before the two would make the first of them the second.
              rw [List.cons_append, List.cons.injEq] at hline
              rcases hline with ⟨rfl, htail⟩
              have hnext : (tail ++ ['/']).head? = some '/' := by
                rw [head?_append_slash tail comment, ← htail]
                rfl
              exact absurd (hasComment_cons.mpr (Or.inl ⟨rfl, hnext⟩)) hfirst
      · rintro rfl
        exact Or.inr ⟨rest, rfl, by simp [HasComment, List.infix_cons_iff]⟩
  | case3 c rest hslashes ih =>
      have hstart : ¬(c = '/' ∧ rest.head? = some '/') := by
        rintro ⟨hc, hhead⟩
        rcases List.head?_eq_some_iff.mp hhead with ⟨after, hafter⟩
        exact hslashes after hc hafter
      rw [uncommented_cons hstart]
      constructor
      · rintro ⟨tail, rfl, htail⟩
        rw [ih.mp htail]
      · rintro rfl
        exact ⟨_, rfl, ih.mpr rfl⟩

theorem not_hasComment_beforeComment (line : List Char) : ¬HasComment (beforeComment line) := by
  rcases uncommented_iff.mpr (Eq.refl (beforeComment line)) with
    ⟨hwhole, hnone⟩ | ⟨comment, -, hfirst⟩
  · rwa [hwhole]
  · exact fun hcomment => hfirst (hcomment.trans (List.prefix_append _ _).isInfix)

end Comments

/-- The code of a line is what stands before its comment, without the white space
    around it. -/
def HasCode (line code : List Char) : Prop :=
  ∃ before, Uncommented line before ∧ Encloses before code

/-- The code of a line is found, and there is no other. -/
theorem hasCode_iff {line code : List Char} : HasCode line code ↔ code = codePart line := by
  simp only [HasCode, uncommented_iff, encloses_iff, exists_eq_left, codePart]

end Text

/-- The code of a line has no comment. -/
theorem not_hasComment_codePart (line : List Char) : ¬Text.HasComment (codePart line) := by
  intro hcomment
  rcases Text.exists_trim (Text.beforeComment line) with ⟨front, back, hsplit, -, -⟩
  refine Text.not_hasComment_beforeComment line (hcomment.trans ?_)
  exact ⟨front, back, hsplit.symm⟩

/-- Text without a comment and without white space around it is its own code. -/
theorem codePart_of_clean {code : List Char} (hcomment : ¬Text.HasComment code)
    (htight : Text.IsTight code) : codePart code = code := by
  refine (Text.hasCode_iff.mp ⟨code, Or.inl ⟨rfl, hcomment⟩, htight, [], [], ?_, ?_, ?_⟩).symm
  · rw [List.nil_append, List.append_nil]
  · exact fun c hc => absurd hc List.not_mem_nil
  · exact fun c hc => absurd hc List.not_mem_nil

namespace SourceLine

variable {numbered : List Char × Nat} {source : SourceLine}

theorem ofNumbered?_eq_some_iff :
    ofNumbered? numbered = some source ↔
      source.line = numbered.2 ∧ source.text.toList = codePart numbered.1 ∧ source.text ≠ "" := by
  simp only [ofNumbered?]
  by_cases hnil : (codePart numbered.1).isEmpty = true
  · rw [if_pos hnil]
    constructor
    · intro h
      cases h
    · rintro ⟨-, htext, hne⟩
      rw [List.isEmpty_iff.mp hnil, String.toList_eq_nil_iff] at htext
      exact absurd htext hne
  · rw [if_neg hnil]
    constructor
    · intro h
      cases h
      refine ⟨rfl, String.toList_ofList, ?_⟩
      rw [ne_eq, ← String.toList_eq_nil_iff, String.toList_ofList]
      exact fun hempty => hnil (List.isEmpty_iff.mpr hempty)
    · rintro ⟨hline, htext, -⟩
      rw [← hline, ← htext, String.ofList_toList]

end SourceLine

section Lines

/-- The lines that are read can be found by cutting at the line feeds alone. -/
theorem filterMap_pieces_eq (cs : List Char) (start : Nat) :
    (((Text.pieces cs).map Text.chomp).zipIdx start).filterMap SourceLine.ofNumbered? =
      ((cs.splitOn '\n').zipIdx start).filterMap SourceLine.ofNumbered? := by
  induction cs using Text.newLine_induction generalizing start with
  | last line hline =>
      rw [List.splitOn_eq_singleton hline]
      by_cases hnil : line = []
      · rw [hnil]
        rfl
      · rw [Text.pieces_of_not_mem hline hnil, List.map_singleton, Text.chomp_of_not_mem hline]
  | line line rest hline ih =>
      have hending : SourceLine.ofNumbered? (Text.chomp (line ++ ['\n']), start) =
          SourceLine.ofNumbered? (line, start) := by
        simp only [SourceLine.ofNumbered?, codePart_chomp]
      rw [Text.pieces_append_newLine line rest hline,
        List.splitOn_append_cons_self_of_not_mem hline, List.map_cons, List.zipIdx_cons,
        List.zipIdx_cons, List.filterMap_cons, List.filterMap_cons, hending, ih]

theorem sourceLines_eq_filterMap (text : String) :
    sourceLines text = (Text.numberedLines text).filterMap SourceLine.ofNumbered? :=
  filterMap_pieces_eq text.toList 1

/-- What is read is the code of a line, with the number of the line. -/
theorem mem_sourceLines_iff {text : String} {source : SourceLine} :
    source ∈ sourceLines text ↔ source.text ≠ "" ∧
      ∃ line, (line, source.line) ∈ Text.numberedLines text ∧
        source.text.toList = codePart line := by
  rw [sourceLines_eq_filterMap, List.mem_filterMap]
  constructor
  · rintro ⟨⟨line, n⟩, hmem, hsource⟩
    rcases SourceLine.ofNumbered?_eq_some_iff.mp hsource with ⟨rfl, htext, hne⟩
    exact ⟨hne, line, hmem, htext⟩
  · rintro ⟨hne, line, hmem, htext⟩
    exact ⟨(line, source.line), hmem, SourceLine.ofNumbered?_eq_some_iff.mpr ⟨rfl, htext, hne⟩⟩

/-- A number has one line. -/
theorem eq_of_mem_numberedLines {text : String} {line line' : List Char} {n : Nat}
    (h : (line, n) ∈ Text.numberedLines text) (h' : (line', n) ∈ Text.numberedLines text) :
    line = line' := by
  rcases List.mem_zipIdx h with ⟨_, _, hline⟩
  rcases List.mem_zipIdx h' with ⟨_, _, hline'⟩
  rw [hline, hline']

/-- The lines that are read are in the order of their numbers. -/
theorem pairwise_line_sourceLines (text : String) :
    ((sourceLines text).map SourceLine.line).Pairwise (· < ·) := by
  have hnumbers : (Text.numberedLines text).Pairwise fun a b => a.2 < b.2 := by
    rw [← List.pairwise_map, Text.numberedLines, List.zipIdx_map_snd]
    exact List.pairwise_lt_range' 1
  rw [List.pairwise_map, sourceLines_eq_filterMap, List.pairwise_filterMap]
  refine hnumbers.imp ?_
  intro numbered numbered' hlt source hsource source' hsource'
  rw [(SourceLine.ofNumbered?_eq_some_iff.mp hsource).1,
    (SourceLine.ofNumbered?_eq_some_iff.mp hsource').1]
  exact hlt

/-- Codes that stand on lines of their own are read as they are. -/
theorem sourceLines_intercalate {codes : List String}
    (h : ∀ code ∈ codes, code ≠ "" ∧ '\n' ∉ code.toList ∧ codePart code.toList = code.toList) :
    sourceLines ("\n".intercalate codes) =
      (codes.zipIdx 1).map fun entry => { line := entry.2, text := entry.1 } := by
  by_cases hnil : codes = []
  · rw [hnil]
    rfl
  · have hlines : ("\n".intercalate codes).toList.splitOn '\n' = codes.map String.toList := by
      rw [String.toList_intercalate]
      refine List.splitOn_intercalate '\n' ?_ (by simpa using hnil)
      intro line hline
      rcases List.mem_map.mp hline with ⟨code, hcode, rfl⟩
      exact (h code hcode).2.1
    rw [sourceLines_eq_filterMap, Text.numberedLines, hlines, List.zipIdx_map,
      List.filterMap_map, ← List.filterMap_eq_map]
    refine List.filterMap_congr ?_
    intro entry hentry
    rcases h entry.1 (List.fst_mem_of_mem_zipIdx hentry) with ⟨hne, -, hcode⟩
    exact SourceLine.ofNumbered?_eq_some_iff.mpr ⟨rfl, hcode.symm, hne⟩

end Lines

/-- Reading leaves clean lines, and leaves them as they are the next time. Every line
    that is read holds something, and neither a comment nor a line feed nor white
    space around it. It is the code of the line with its number. The numbers go up,
    and a line of the text is passed over exactly if it has no code. The texts of the
    lines, put together with a line feed between them, are read as the same texts,
    numbered from one. -/
theorem sourceLines_clean (text : String) :
    (∀ source ∈ sourceLines text,
      source.text ≠ "" ∧ ¬Text.HasComment source.text.toList ∧ '\n' ∉ source.text.toList ∧
      Text.IsTight source.text.toList ∧
      ∃ line, (line, source.line) ∈ Text.numberedLines text ∧
        Text.HasCode line source.text.toList) ∧
    ((sourceLines text).map SourceLine.line).Pairwise (· < ·) ∧
    (∀ line n, (line, n) ∈ Text.numberedLines text →
      ((∀ source ∈ sourceLines text, source.line ≠ n) ↔ Text.HasCode line [])) ∧
    sourceLines ("\n".intercalate ((sourceLines text).map SourceLine.text)) =
      (((sourceLines text).map SourceLine.text).zipIdx 1).map fun entry =>
        { line := entry.2, text := entry.1 } := by
  have hclean : ∀ source ∈ sourceLines text,
      source.text ≠ "" ∧ ¬Text.HasComment source.text.toList ∧ '\n' ∉ source.text.toList ∧
      Text.IsTight source.text.toList ∧
      ∃ line, (line, source.line) ∈ Text.numberedLines text ∧
        Text.HasCode line source.text.toList := by
    intro source hsource
    have hfeed := newLine_not_mem_of_mem_sourceLines hsource
    rcases mem_sourceLines_iff.mp hsource with ⟨hne, line, hmem, htext⟩
    rw [htext] at hfeed ⊢
    exact ⟨hne, not_hasComment_codePart line, hfeed, Text.isTight_trim _, line, hmem,
      Text.hasCode_iff.mpr rfl⟩
  refine ⟨hclean, pairwise_line_sourceLines text, ?_, sourceLines_intercalate ?_⟩
  · intro line n hmem
    rw [Text.hasCode_iff]
    constructor
    · intro hmissing
      -- A line with code would have been read.
      by_contra hcode
      refine hmissing { line := n, text := String.ofList (codePart line) } ?_ rfl
      refine mem_sourceLines_iff.mpr ⟨?_, line, hmem, String.toList_ofList⟩
      rw [ne_eq, ← String.toList_eq_nil_iff, String.toList_ofList]
      exact fun hnil => hcode hnil.symm
    · rintro hcode source hsource rfl
      rcases mem_sourceLines_iff.mp hsource with ⟨hne, line', hmem', htext⟩
      rw [eq_of_mem_numberedLines hmem' hmem, ← hcode, String.toList_eq_nil_iff] at htext
      exact hne htext
  · intro code hcode
    rcases List.mem_map.mp hcode with ⟨source, hsource, rfl⟩
    rcases hclean source hsource with ⟨hne, hcomment, hfeed, htight, -⟩
    exact ⟨hne, hfeed, codePart_of_clean hcomment htight⟩

/-- Comments with and without code in front of them, slashes on either side of a
    comment, both line endings, and returns and a no-break space in other places. -/
def untidyText : String :=
  "  push\u00a0 // one\r\n\t//\r\na/ b///c\n\n \ren\rd/ "

theorem sourceLines_clean_untidyText :
    sourceLines untidyText =
      [{ line := 1, text := "push" }, { line := 3, text := "a/ b" },
        { line := 5, text := "en\rd/" }] ∧
    ("\t//\r".toList, 2) ∈ Text.numberedLines untidyText ∧ Text.HasCode "\t//\r".toList [] ∧
    ¬Text.HasComment "a/ b".toList ∧
    sourceLines "push\na/ b\nen\rd/" =
      [{ line := 1, text := "push" }, { line := 2, text := "a/ b" },
        { line := 3, text := "en\rd/" }] := by
  have hread : sourceLines untidyText =
      [{ line := 1, text := "push" }, { line := 3, text := "a/ b" },
        { line := 5, text := "en\rd/" }] := by decide +kernel
  have hmem : ("\t//\r".toList, 2) ∈ Text.numberedLines untidyText := by decide +kernel
  rcases sourceLines_clean untidyText with ⟨hclean, -, hmissing, hagain⟩
  rw [hread] at hclean hmissing hagain
  refine ⟨hread, hmem, (hmissing _ 2 hmem).mp (by decide), ?_, ?_⟩
  · exact (hclean { line := 3, text := "a/ b" } (by decide)).2.1
  · have hjoined : "\n".intercalate ["push", "a/ b", "en\rd/"] = "push\na/ b\nen\rd/" := by
      decide +kernel
    rw [← hjoined]
    exact hagain

end HackVM
