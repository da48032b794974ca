import HackVM.Command.Printer
import HackVM.Proofs.Grammar
import HackVM.Proofs.Layout

/-!
# Free Layout

A written program is read back, however it is laid out.

A command is written with one space between its words, on a line of its own. A
program may be laid out with more care. White space of any kind and length may
stand where a space stood, and before and behind the command; a comment may end a
line; lines may hold nothing, or only a comment; and every line may end in one way
or the other. `LaidOut` lists these freedoms, and keeps the number of each line with
the command that stands on it. Reading undoes all of them at once, because it looks
at nothing but the words in front of the comment, and at the number of the line.

A carriage return needs care. In front of a line feed it belongs to the ending, but
it is white space as well, and may be the last character of a comment. It makes no
difference, since it is dropped in any case.

## Main definitions

* `Text.Respaced`: A text with other white space for its spaces.
* `Command.tokens`: The words of a command.
* `CommandLine`, `IdleLine`: A line with a command on it, or with none.
* `LaidOut`: A program as it may be laid out.

## Theorems

* `Text.words_respaced`, `Text.words_trim`: White space does not change the words.
* `codePart_append_blank`: A blank at the end of a line is dropped with the comment
  or by itself.
* `Command.words_render`: A written command has its words.
* `CommandLine.parse`: A line with a command on it is read as that command.
* `parseLines_of_laidOut`: A program is read back from any layout.
-/

namespace HackVM

namespace Text

/-- White space within a line. -/
def IsSpacing (cs : List Char) : Prop :=
  ∀ c ∈ cs, c.toNat ∈ whiteSpace ∧ c ≠ '\n'

instance (cs : List Char) : Decidable (IsSpacing cs) :=
  List.decidableBAll (fun c : Char => c.toNat ∈ whiteSpace ∧ c ≠ '\n') cs

/-- The text with a run of white space in place of each space. -/
inductive Respaced : List Char → List Char → Prop
  | nil : Respaced [] []
  | space {gap cs ds : List Char} : gap ≠ [] → IsSpacing gap → Respaced cs ds →
      Respaced (' ' :: cs) (gap ++ ds)
  | other {c : Char} {cs ds : List Char} : c ≠ ' ' → Respaced cs ds →
      Respaced (c :: cs) (c :: ds)

/-- A comment up to the end of a line, or none. -/
inductive IsComment : List Char → Prop
  | none : IsComment []
  | text {cs : List Char} : '\n' ∉ cs → IsComment ('/' :: '/' :: cs)

variable {cs ds blanks : List Char}

theorem IsSpacing.isBlank (h : IsSpacing cs) : ∀ c ∈ cs, isBlank c = true :=
  fun c hc => isBlank_iff.mpr (h c hc).1

theorem IsSpacing.newLine_not_mem (h : IsSpacing cs) : '\n' ∉ cs :=
  fun hmem => (h '\n' hmem).2 rfl

theorem IsSpacing.slash_not_mem (h : IsSpacing cs) : '/' ∉ cs :=
  fun hmem => absurd (h '/' hmem).1 (by decide)

theorem IsComment.newLine_not_mem (h : IsComment cs) : '\n' ∉ cs := by
  cases h with
  | none => exact List.not_mem_nil
  | text hline => simpa using hline

/-- Blanks close the word that follows them. -/
theorem foldr_cons_blanks (hblanks : ∀ c ∈ blanks, isBlank c = true) (hne : blanks ≠ [])
    (s : OpenWords) :
    blanks.foldr OpenWords.cons s = { current := [], complete := s.close } := by
  induction blanks with
  | nil => exact absurd rfl hne
  | cons c blanks ih =>
      rw [List.forall_mem_cons] at hblanks
      rw [List.foldr_cons, OpenWords.cons, if_pos hblanks.1]
      -- The last blank closes the word, and those in front of it an empty one.
      by_cases hnil : blanks = []
      · rw [hnil]
        rfl
      · rw [ih hblanks.2 hnil]
        rfl

/-- The words are the same with other white space between them. -/
theorem words_respaced (h : Respaced cs ds) : words ds = words cs := by
  have hspace : isBlank ' ' = true := by decide
  have hfold : ds.foldr OpenWords.cons { current := [], complete := [] } =
      cs.foldr OpenWords.cons { current := [], complete := [] } := by
    induction h with
    | nil => rfl
    | space hne hgap _ ih =>
        rw [List.foldr_append, foldr_cons_blanks hgap.isBlank hne, ih, List.foldr_cons,
          OpenWords.cons, if_pos hspace]
    | other _ _ ih => rw [List.foldr_cons, List.foldr_cons, ih]
  rw [words, words, hfold]

/-- Blanks around a text add no words. -/
theorem words_surrounded {front back : List Char} (hfront : ∀ c ∈ front, isBlank c = true)
    (hback : ∀ c ∈ back, isBlank c = true) : words (front ++ cs ++ back) = words cs := by
  have hafter : back.foldr OpenWords.cons { current := [], complete := [] } =
      { current := [], complete := [] } := by
    by_cases hnil : back = []
    · rw [hnil]
      rfl
    · exact foldr_cons_blanks hback hnil _
  have hbefore : ∀ rest, words (front ++ rest) = words rest := by
    intro rest
    induction front with
    | nil => rfl
    | cons c front ih =>
        rw [List.forall_mem_cons] at hfront
        rw [List.cons_append, words_cons_blank hfront.1, ih hfront.2]
  rw [List.append_assoc, hbefore, words, List.foldr_append, hafter, words]

/-- A word is the same in both texts. -/
theorem Respaced.word {word : List Char} (hword : ' ' ∉ word) (h : Respaced cs ds) :
    Respaced (word ++ cs) (word ++ ds) := by
  induction word with
  | nil => exact h
  | cons c word ih =>
      rw [List.mem_cons, not_or] at hword
      exact .other (Ne.symm hword.1) (ih hword.2)

/-- What is not white space was there before. -/
theorem Respaced.mem (h : Respaced cs ds) {c : Char} (hc : c ∈ ds) :
    c ∈ cs ∨ (c.toNat ∈ whiteSpace ∧ c ≠ '\n') := by
  induction h with
  | nil => cases hc
  | space _ hgap _ ih =>
      rcases List.mem_append.mp hc with hc | hc
      · exact Or.inr (hgap c hc)
      · exact (ih hc).imp (List.mem_cons_of_mem _) id
  | other _ _ ih =>
      rcases List.mem_cons.mp hc with rfl | hc
      · exact Or.inl List.mem_cons_self
      · exact (ih hc).imp (List.mem_cons_of_mem _) id

/-- Trimming cuts off blanks on both sides. -/
theorem exists_trim (cs : List Char) :
    ∃ front back, cs = front ++ trim cs ++ back ∧ (∀ c ∈ front, isBlank c = true) ∧
      ∀ c ∈ back, isBlank c = true := by
  refine ⟨cs.takeWhile isBlank, ((trimStart cs).reverse.takeWhile isBlank).reverse, ?_, ?_, ?_⟩
  · rw [List.append_assoc, trim, trimEnd, ← List.reverse_append,
      List.takeWhile_append_dropWhile, List.reverse_reverse, trimStart,
      List.takeWhile_append_dropWhile]
  · intro c hc
    exact List.mem_takeWhile_imp hc
  · intro c hc
    exact List.mem_takeWhile_imp (List.mem_reverse.mp hc)

/-- Trimming keeps the words. -/
theorem words_trim (cs : List Char) : words (trim cs) = words cs := by
  rcases exists_trim cs with ⟨front, back, hcs, hfront, hback⟩
  conv_rhs => rw [hcs]
  exact (words_surrounded hfront hback).symm

/-- Words with a space between them are the words of the text. -/
theorem words_intercalate {ws : List (List Char)}
    (h : ∀ word ∈ ws, word ≠ [] ∧ ∀ c ∈ word, isBlank c = false) :
    words ([' '].intercalate ws) = ws := by
  have hspace : isBlank ' ' = true := by decide
  induction ws with
  | nil => rfl
  | cons word ws ih =>
      rw [List.forall_mem_cons] at h
      cases ws with
      | nil =>
          rw [List.intercalate_singleton]
          exact words_of_visible h.1.1 h.1.2
      | cons next rest =>
          rw [List.intercalate_cons_cons, List.append_assoc, List.singleton_append,
            words_append_blank h.1.1 h.1.2 hspace, ih h.2]

theorem mem_intercalate {ws : List (List Char)} {c : Char} (h : c ∈ [' '].intercalate ws) :
    c = ' ' ∨ ∃ word ∈ ws, c ∈ word := by
  induction ws with
  | nil => cases h
  | cons word ws ih =>
      cases ws with
      | nil =>
          rw [List.intercalate_singleton] at h
          exact Or.inr ⟨word, List.mem_cons_self, h⟩
      | cons next rest =>
          rw [List.intercalate_cons_cons, List.append_assoc, List.mem_append,
            List.singleton_append, List.mem_cons] at h
          rcases h with h | h | h
          · exact Or.inr ⟨word, List.mem_cons_self, h⟩
          · exact Or.inl h
          · rcases ih h with h | ⟨other, hother, h⟩
            · exact Or.inl h
            · exact Or.inr ⟨other, List.mem_cons_of_mem word hother, h⟩

/-- A blank at the end is trimmed off. -/
theorem trim_append_blank {c : Char} (hc : isBlank c = true) (cs : List Char) :
    trim (cs ++ [c]) = trim cs := by
  rw [trim, trim, trimStart, trimStart, List.dropWhile_append]
  split
  · next hnil =>
      rw [List.isEmpty_iff.mp hnil, List.dropWhile_cons_of_pos hc]
      rfl
  · rw [trimEnd, trimEnd, List.reverse_concat, List.dropWhile_cons_of_pos hc]

/-- What stands in front of a comment is kept. -/
theorem beforeComment_append {comment : List Char} (h : '/' ∉ cs) (hcomment : IsComment comment) :
    beforeComment (cs ++ comment) = cs := by
  cases hcomment with
  | none =>
      rw [List.append_nil]
      exact beforeComment_of_not_mem h
  | text hline =>
      induction cs with
      | nil => rfl
      | cons c cs ih =>
          have hc : c ≠ '/' := fun hc => h (hc ▸ List.mem_cons_self)
          rw [List.cons_append, beforeComment, ih fun hcs => h (List.mem_cons_of_mem c hcs)]
          intro after hslash _
          exact absurd hslash hc

/-- A character at the end stands behind the comment, or nothing does. It starts no
    comment, unless it is a slash. -/
theorem beforeComment_concat {c : Char} (hc : c ≠ '/') (cs : List Char) :
    beforeComment (cs ++ [c]) = beforeComment cs ∨
      beforeComment (cs ++ [c]) = beforeComment cs ++ [c] := by
  fun_induction beforeComment cs with
  | case1 =>
      right
      exact beforeComment_of_not_mem (by simpa using hc.symm)
  | case2 rest => exact Or.inl rfl
  | case3 d rest hslash ih =>
      have hcons : beforeComment (d :: rest ++ [c]) = d :: beforeComment (rest ++ [c]) := by
        rw [List.cons_append, beforeComment]
        -- A slash at the end does not meet a second one in the new character.
        rintro after rfl hrest
        cases rest with
        | nil =>
            cases hrest
            exact hc rfl
        | cons e rest =>
            cases hrest
            exact hslash _ rfl rfl
      rw [hcons, List.cons_append]
      rcases ih with heq | heq
      · exact Or.inl (congrArg (d :: ·) heq)
      · exact Or.inr (congrArg (d :: ·) heq)

end Text

/-- A blank at the end of a line is dropped with the comment or by itself. -/
theorem codePart_append_blank {c : Char} (hc : Text.isBlank c = true) (line : List Char) :
    codePart (line ++ [c]) = codePart line := by
  have hslash : c ≠ '/' := by
    rintro rfl
    exact absurd hc (by decide)
  rw [codePart, codePart]
  rcases Text.beforeComment_concat hslash line with heq | heq
  · rw [heq]
  · rw [heq, Text.trim_append_blank hc]

/-- A line means the same whichever ending it has. -/
theorem codePart_chomp (line : List Char) :
    codePart (Text.chomp (line ++ ['\n'])) = codePart line := by
  have hreturn : Text.isBlank '\r' = true := by decide
  rcases Text.chomp_newLine_cases line with heq | heq
  · rw [heq]
  · -- A return at the end of the line is taken for a part of the ending.
    conv_rhs => rw [heq, codePart_append_blank hreturn]

namespace Command

/-- The words of a command. -/
def tokens : Command → List String
  | .push segment index => ["push", segment.keyword, Word.numeral index]
  | .pop segment index => ["pop", segment.keyword, Word.numeral index]
  | .arithmetic op => [op.keyword]
  | .label name => ["label", name]
  | .goto name => ["goto", name]
  | .ifGoto name => ["if-goto", name]
  | .function name locals => ["function", name, Word.numeral locals]
  | .call name args => ["call", name, Word.numeral args]
  | .ret => ["return"]

/-- A command is written with a space between its words. -/
theorem toList_render (command : Command) :
    command.render.toList = [' '].intercalate (command.tokens.map String.toList) := by
  cases command <;> simp [render, tokens, List.intercalate]

variable {command : Command}

/-- The words of a command are words. -/
theorem plain_tokens (h : command.WellFormed) :
    ∀ token ∈ command.tokens, token.toList ≠ [] ∧ Text.Plain token.toList := by
  have hnumeral : ∀ w : Word, (Word.numeral w).toList ≠ [] ∧ Text.Plain (Word.numeral w).toList :=
    fun w => ⟨Text.repr_ne_nil w.toNat, plain_numeral w⟩
  have hname : ∀ name, command.name? = some name →
      name.toList ≠ [] ∧ Text.Plain name.toList :=
    fun name hname => ⟨ne_nil_of_isName (h.names name hname), plain_of_isName (h.names name hname)⟩
  cases command with
  | push segment index | pop segment index =>
      simp only [tokens, List.forall_mem_cons, List.not_mem_nil, false_implies, implies_true,
        and_true]
      refine ⟨by decide, ?_, hnumeral index⟩
      cases segment <;> decide
  | arithmetic op =>
      simp only [tokens, List.forall_mem_singleton]
      cases op <;> decide
  | label name | goto name | ifGoto name =>
      simp only [tokens, List.forall_mem_cons, List.not_mem_nil, false_implies, implies_true,
        and_true]
      exact ⟨by decide, hname name rfl⟩
  | function name count | call name count =>
      simp only [tokens, List.forall_mem_cons, List.not_mem_nil, false_implies, implies_true,
        and_true]
      exact ⟨by decide, hname name rfl, hnumeral count⟩
  | ret => decide

/-- A written command has its words. -/
theorem words_render (h : command.WellFormed) :
    (Text.words command.render.toList).map String.ofList = command.tokens := by
  rw [toList_render, Text.words_intercalate, List.map_map]
  · simp
  · intro word hword
    rcases List.mem_map.mp hword with ⟨token, htoken, rfl⟩
    rcases plain_tokens h token htoken with ⟨hne, hplain⟩
    exact ⟨hne, fun c hc => (hplain c hc).1⟩

/-- The words of a command are written as the grammar has it. -/
theorem shaped_tokens (h : command.WellFormed) : Shaped command.tokens command := by
  have hnumber : ∀ w : Word, IsNumber (Word.numeral w) w :=
    fun w => ofNumeral?_eq_some_iff.mp (Word.ofNumeral?_numeral w)
  have hname : ∀ name, command.name? = some name → IsSymbolName name :=
    fun name hname => isName_iff.mp (h.names name hname)
  cases command with
  | push segment index => exact .push (mem_segmentWords_iff.mpr rfl) (hnumber index)
  | pop segment index =>
      refine .pop (mem_segmentWords_iff.mpr rfl) ?_ (hnumber index)
      rintro rfl
      exact h.place index rfl
  | arithmetic op => exact .arithmetic (mem_operationWords_iff.mpr rfl)
  | label name => exact .label (hname name rfl)
  | goto name => exact .goto (hname name rfl)
  | ifGoto name => exact .ifGoto (hname name rfl)
  | function name locals => exact .function (hname name rfl) (hnumber locals)
  | call name args => exact .call (hname name rfl) (hnumber args)
  | ret => exact .ret

/-- A line with the words of a command is read as the command. -/
theorem parse_of_words (h : command.WellFormed) {line : List Char}
    (hline : Text.words line = Text.words command.render.toList) :
    parse (String.ofList line) = .ok command := by
  rw [parse, String.toList_ofList, hline, words_render h, ofWords_of_shaped (shaped_tokens h),
    h.bounds]
  rfl

/-- A written command has spaces between its words, and neither other blanks nor
    slashes. -/
theorem mem_render (h : command.WellFormed) {c : Char} (hc : c ∈ command.render.toList) :
    c = ' ' ∨ (Text.isBlank c = false ∧ c ≠ '/') := by
  rw [toList_render] at hc
  rcases Text.mem_intercalate hc with rfl | ⟨word, hword, hc⟩
  · exact Or.inl rfl
  · rcases List.mem_map.mp hword with ⟨token, htoken, rfl⟩
    exact Or.inr ((plain_tokens h token htoken).2 c hc)

/-- With other white space in it, it still has neither slashes nor line feeds. -/
theorem mem_respaced (h : command.WellFormed) {body : List Char}
    (hbody : Text.Respaced command.render.toList body) {c : Char} (hc : c ∈ body) :
    c ≠ '/' ∧ c ≠ '\n' := by
  rcases hbody.mem hc with hmem | ⟨hspace, hfeed⟩
  · rcases mem_render h hmem with rfl | ⟨hvisible, hslash⟩
    · decide
    · refine ⟨hslash, ?_⟩
      rintro rfl
      exact absurd hvisible (by decide)
  · refine ⟨?_, hfeed⟩
    rintro rfl
    exact absurd hspace (by decide)

end Command

/-- A line with a command on it. There may be white space around the command and
    between its words, and a comment behind it. -/
inductive CommandLine (command : Command) : List Char → Prop
  | mk {indent body trail comment : List Char} : Text.IsSpacing indent →
      Text.Respaced command.render.toList body → Text.IsSpacing trail → Text.IsComment comment →
      CommandLine command (indent ++ body ++ trail ++ comment)

/-- A line without a command. -/
inductive IdleLine : List Char → Prop
  | mk {blanks comment : List Char} : Text.IsSpacing blanks → Text.IsComment comment →
      IdleLine (blanks ++ comment)

section Reading

variable {command : Command} {line : List Char}

theorem IdleLine.codePart_eq (h : IdleLine line) : codePart line = [] := by
  rcases h with ⟨hblanks, hcomment⟩
  rw [codePart, Text.beforeComment_append hblanks.slash_not_mem hcomment, Text.trim,
    Text.trimStart, List.dropWhile_eq_nil_iff.mpr hblanks.isBlank]
  rfl

theorem IdleLine.newLine_not_mem (h : IdleLine line) : '\n' ∉ line := by
  rcases h with ⟨hblanks, hcomment⟩
  rw [List.mem_append, not_or]
  exact ⟨hblanks.newLine_not_mem, hcomment.newLine_not_mem⟩

/-- A line with a command on it has a command and no line feed. -/
theorem CommandLine.parse (h : CommandLine command line) (hcommand : command.WellFormed) :
    codePart line ≠ [] ∧ Command.parse (String.ofList (codePart line)) = .ok command ∧
      '\n' ∉ line := by
  rcases h with ⟨hindent, hbody, htrail, hcomment⟩
  rename_i indent body trail comment
  have hslash : '/' ∉ indent ++ body ++ trail := by
    rw [List.mem_append, List.mem_append, not_or, not_or]
    exact ⟨⟨hindent.slash_not_mem, fun hmem => (Command.mem_respaced hcommand hbody hmem).1 rfl⟩,
      htrail.slash_not_mem⟩
  have hfeed : '\n' ∉ indent ++ body ++ trail ++ comment := by
    rw [List.mem_append, List.mem_append, List.mem_append, not_or, not_or, not_or]
    exact ⟨⟨⟨hindent.newLine_not_mem,
      fun hmem => (Command.mem_respaced hcommand hbody hmem).2 rfl⟩, htrail.newLine_not_mem⟩,
      hcomment.newLine_not_mem⟩
  have hwords : Text.words (codePart (indent ++ body ++ trail ++ comment)) =
      Text.words command.render.toList := by
    rw [codePart, Text.beforeComment_append hslash hcomment, Text.words_trim,
      Text.words_surrounded hindent.isBlank htrail.isBlank, Text.words_respaced hbody]
  have hparse := Command.parse_of_words hcommand hwords
  refine ⟨?_, hparse, hfeed⟩
  -- Nothing is read on a line on which nothing stands.
  intro hnil
  rw [hnil] at hparse
  cases hparse

end Reading

/-- The two endings of a line. -/
inductive IsEnding : List Char → Prop
  | feed : IsEnding ['\n']
  | returnFeed : IsEnding ['\r', '\n']

/-- A text in which commands are laid out, with the numbers of their lines. The
    first line of the text has the number in front. -/
inductive LaidOut : Nat → List (Nat × Command) → List Char → Prop
  | nil {n : Nat} : LaidOut n [] []
  | idle {n : Nat} {placed : List (Nat × Command)} {line ending rest : List Char} :
      IdleLine line → IsEnding ending → LaidOut (n + 1) placed rest →
      LaidOut n placed (line ++ ending ++ rest)
  | command {n : Nat} {command : Command} {placed : List (Nat × Command)}
      {line ending rest : List Char} :
      CommandLine command line → IsEnding ending → LaidOut (n + 1) placed rest →
      LaidOut n ((n, command) :: placed) (line ++ ending ++ rest)

/-- A line and its ending are one piece, of which the line is read. -/
theorem IsEnding.pieces {ending : List Char} (h : IsEnding ending) {line : List Char}
    (hline : '\n' ∉ line) (rest : List Char) :
    Text.pieces (line ++ ending ++ rest) = (line ++ ending) :: Text.pieces rest ∧
      codePart (Text.chomp (line ++ ending)) = codePart line := by
  cases h with
  | feed =>
      rw [List.append_assoc, List.singleton_append, Text.pieces_append_newLine line rest hline]
      exact ⟨rfl, codePart_chomp line⟩
  | returnFeed =>
      -- The piece is that of a longer line, which has a blank at its end.
      have hsplit : line ++ ['\r', '\n'] = line ++ ['\r'] ++ ['\n'] := by simp
      have hline' : '\n' ∉ line ++ ['\r'] := by simp [hline]
      rw [hsplit, List.append_assoc (line ++ ['\r']), List.singleton_append,
        Text.pieces_append_newLine _ rest hline', codePart_chomp]
      exact ⟨rfl, codePart_append_blank (by decide) line⟩

/-- Reading undoes a layout, from any line on. -/
theorem LaidOut.parsed {n : Nat} {placed : List (Nat × Command)} {cs : List Char}
    (h : LaidOut n placed cs) (hplaced : ∀ entry ∈ placed, entry.2.WellFormed) :
    ((((Text.pieces cs).map Text.chomp).zipIdx n).filterMap SourceLine.ofNumbered?).map
        (fun source => (source.parse.line, source.parse.result)) =
      placed.map fun entry => (entry.1, .ok entry.2) := by
  induction h with
  | nil => rfl
  | idle hline hending _ ih =>
      rcases hending.pieces hline.newLine_not_mem _ with ⟨hpieces, hcode⟩
      rw [hpieces, List.map_cons, List.zipIdx_cons, List.filterMap_cons_none, ih hplaced]
      simp only [SourceLine.ofNumbered?, hcode, hline.codePart_eq]
      rfl
  | @command n command placed line ending rest hline hending _ ih =>
      rw [List.forall_mem_cons] at hplaced
      rcases hline.parse hplaced.1 with ⟨hne, hparse, hfeed⟩
      rcases hending.pieces hfeed _ with ⟨hpieces, hcode⟩
      rw [hpieces, List.map_cons, List.zipIdx_cons]
      have hsource : SourceLine.ofNumbered? (Text.chomp (line ++ ending), n) =
          some { line := n, text := String.ofList (codePart line) } := by
        simp only [SourceLine.ofNumbered?, hcode]
        exact if_neg (by simpa using hne)
      rw [List.filterMap_cons_some hsource, List.map_cons, ih hplaced.2, List.map_cons]
      simp only [SourceLine.parse, hparse]

/-- A program is read back from any layout: reading gives its commands in order,
    each with the number of the line that it stands on. -/
theorem parseLines_of_laidOut {placed : List (Nat × Command)} {text : String}
    (h : LaidOut 1 placed text.toList) (hplaced : ∀ entry ∈ placed, entry.2.WellFormed) :
    (parseLines text).map (fun parsed => (parsed.line, parsed.result)) =
      placed.map fun entry => (entry.1, .ok entry.2) := by
  rw [← h.parsed hplaced, parseLines, sourceLines, Text.lines, List.map_map]
  rfl

/-- Three commands between idle lines, with tabs, a no-break space, comments with
    and without a blank in front, and both endings. -/
def freeText : String :=
  " // add\r\n\tnot// not\r\n\n\tgoto\t\u00a0A$1 \r\n//\n  pop  temp 7 // 7 // \n"

/-- The commands of the text with their lines. -/
def freeProgram : List (Nat × Command) :=
  [(2, .arithmetic .not), (4, .goto "A$1"), (6, .pop .temp 7)]

theorem laidOut_freeText : LaidOut 1 freeProgram freeText.toList := by
  have hnot : Text.Respaced (Command.arithmetic .not).render.toList ("not".toList ++ []) := by
    have hrender : (Command.arithmetic .not).render.toList = "not".toList ++ [] := by decide
    rw [hrender]
    exact .word (by decide) .nil
  have hgoto : Text.Respaced (Command.goto "A$1").render.toList
      ("goto".toList ++ ("\t\u00a0".toList ++ ("A$1".toList ++ []))) := by
    have hrender : (Command.goto "A$1").render.toList =
        "goto".toList ++ ' ' :: ("A$1".toList ++ []) := by decide
    rw [hrender]
    exact .word (by decide) (.space (by decide) (by decide) (.word (by decide) .nil))
  have hpop : Text.Respaced (Command.pop .temp 7).render.toList
      ("pop".toList ++ ("  ".toList ++ ("temp".toList ++ (" ".toList ++ ("7".toList ++ []))))) := by
    have hrender : (Command.pop .temp 7).render.toList =
        "pop".toList ++ ' ' :: ("temp".toList ++ ' ' :: ("7".toList ++ [])) := by decide +kernel
    rw [hrender]
    exact .word (by decide) (.space (by decide) (by decide)
      (.word (by decide) (.space (by decide) (by decide) (.word (by decide) .nil))))
  have hnone : Text.IsSpacing [] := by decide
  have hone : Text.IsSpacing [' '] := by decide
  have htwo : Text.IsSpacing [' ', ' '] := by decide
  have htab : Text.IsSpacing ['\t'] := by decide
  have hcomment : ∀ cs : List Char, '\n' ∉ cs → Text.IsComment ('/' :: '/' :: cs) :=
    fun _ => .text
  exact .idle (.mk hone (hcomment " add".toList (by decide))) .returnFeed
    (.command (.mk htab hnot hnone (hcomment " not".toList (by decide))) .returnFeed
    (.idle (.mk hnone .none) .feed
    (.command (.mk htab hgoto hone .none) .returnFeed
    (.idle (.mk hnone (hcomment [] (by decide))) .feed
    (.command (.mk htwo hpop hone (hcomment " 7 // ".toList (by decide))) .feed .nil)))))

theorem wellFormed_freeProgram : ∀ entry ∈ freeProgram, entry.2.WellFormed := by
  have hnot : (Command.arithmetic .not).WellFormed := ⟨by simp [Command.name?], rfl, by simp⟩
  have hgoto : (Command.goto "A$1").WellFormed := by
    refine ⟨?_, rfl, by simp⟩
    rintro name ⟨⟩
    decide
  have hpop : (Command.pop .temp 7).WellFormed := ⟨by simp [Command.name?], by decide, by simp⟩
  simp only [freeProgram, List.forall_mem_cons, List.not_mem_nil, false_implies, implies_true,
    and_true]
  exact ⟨hnot, hgoto, hpop⟩

/-- The text is a layout of the commands, and is read so. -/
theorem parseLines_of_laidOut_freeText :
    LaidOut 1 freeProgram freeText.toList ∧ (∀ entry ∈ freeProgram, entry.2.WellFormed) ∧
      (parseLines freeText).map (fun parsed => (parsed.line, parsed.result)) =
        [(2, .ok (.arithmetic .not)), (4, .ok (.goto "A$1")), (6, .ok (.pop .temp 7))] :=
  ⟨laidOut_freeText, wellFormed_freeProgram,
    parseLines_of_laidOut laidOut_freeText wellFormed_freeProgram⟩

end HackVM
