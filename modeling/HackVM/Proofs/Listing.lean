import HackVM.Assembly.Block
import HackVM.Image.Statement
import Mathlib.Data.Bool.AllAny
import Mathlib.Data.List.Basic
import Mathlib.Data.List.TakeDrop
import Mathlib.Data.List.TakeWhile

/-!
# Reading a Listing Back

What the assembler sees of a text listing.

A listing is written line by line from instructions, and the assembler sorts
its lines again by their first character. The two meet in `statement?`, the
statement that an instruction makes: a comment makes none, and the text of any
other instruction is read as exactly its own statement. This rests on a single
property of what is written. No character of a name, a number or a mnemonic is
blank or a slash, so nothing is trimmed from a line and no comment starts
inside it.

A comment is the one line that may hold anything. It must not hold a line feed,
since the rest of it would be a line of its own, but it may end in a carriage
return, which the reader then takes for part of the line ending.

## Main definitions

* `Text.Plain`: Text without blanks and slashes.
* `Instruction.statement?`: The statement that an instruction makes.
* `Instruction.Legible`: Names are names, and a comment stays on its line.
* `CommandError.payload`, `Block.payload`: The texts that a message quotes.
* `Block.Printable`: Every line of the block's listing is legible.

## Theorems

* `codePart_of_plain`: Plain text is code as it stands.
* `Computation.parse?_render`: A written computation is read back.
* `Instruction.ofLine?_chomp_render`: A written line makes its own statement.
* `statements_renderText`: A listing makes the statements of its instructions.
-/

namespace HackVM

namespace Text

/-- Nothing in the text is blank, and nothing can start a comment. -/
def Plain (cs : List Char) : Prop :=
  ∀ c ∈ cs, isBlank c = false ∧ c ≠ '/'

instance (cs : List Char) : Decidable (Plain cs) :=
  List.decidableBAll (fun c => isBlank c = false ∧ c ≠ '/') cs

theorem Plain.append {cs ds : List Char} (hc : Plain cs) (hd : Plain ds) : Plain (cs ++ ds) := by
  intro c h
  rcases List.mem_append.mp h with h | h
  · exact hc c h
  · exact hd c h

theorem dropWhile_isBlank_of_plain {cs : List Char} (h : Plain cs) :
    cs.dropWhile isBlank = cs := by
  cases cs with
  | nil => rfl
  | cons c rest =>
      rw [List.dropWhile_cons, (h c List.mem_cons_self).1]
      rfl

theorem trim_of_plain {cs : List Char} (h : Plain cs) : trim cs = cs := by
  have hrev : Plain cs.reverse := fun c hc => h c (List.mem_reverse.mp hc)
  rw [trim, trimStart, dropWhile_isBlank_of_plain h, trimEnd, dropWhile_isBlank_of_plain hrev,
    List.reverse_reverse]

theorem beforeComment_of_not_mem {cs : List Char} (h : '/' ∉ cs) : beforeComment cs = cs := by
  induction cs with
  | nil => rfl
  | cons c rest ih =>
      have hc : c ≠ '/' := fun hc => h (hc ▸ List.mem_cons_self)
      rw [beforeComment, ih fun hrest => h (List.mem_cons_of_mem c hrest)]
      intro after hslash _
      exact absurd hslash hc

/-- The mark is found where it first stands. -/
theorem cut?_append (mark : Char) (before after : List Char) (h : mark ∉ before) :
    cut? mark (before ++ mark :: after) = some (before, after) := by
  have hbefore : ∀ c ∈ before, (c != mark) = true := fun c hc =>
    bne_iff_ne.mpr fun heq => h (heq ▸ hc)
  have hmark : (mark != mark) = false := by simp
  have hspan : (before ++ mark :: after).span (· != mark) = (before, mark :: after) := by
    rw [List.span_eq_takeWhile_dropWhile, List.takeWhile_append_of_pos hbefore,
      List.dropWhile_append_of_pos hbefore, List.takeWhile_cons, List.dropWhile_cons, hmark]
    simp only [Bool.false_eq_true, if_false, List.append_nil]
  rw [cut?, hspan]

theorem cut?_of_not_mem (mark : Char) (cs : List Char) (h : mark ∉ cs) : cut? mark cs = none := by
  have hall : ∀ c ∈ cs, (c != mark) = true := fun c hc => bne_iff_ne.mpr fun heq => h (heq ▸ hc)
  have hspan : cs.span (· != mark) = (cs, []) := by
    rw [List.span_eq_takeWhile_dropWhile, List.takeWhile_eq_self_iff.mpr hall,
      List.dropWhile_eq_nil_iff.mpr hall]
  rw [cut?, hspan]

/-- Dropping a line ending of its own shortens a line by at most a carriage
    return. -/
theorem chomp_newLine_cases (line : List Char) :
    chomp (line ++ ['\n']) = line ∨ line = chomp (line ++ ['\n']) ++ ['\r'] := by
  rcases List.eq_nil_or_concat line with rfl | ⟨front, last, rfl⟩
  · exact Or.inl rfl
  · by_cases hlast : last = '\r'
    · right
      subst hlast
      simp [chomp]
    · left
      exact chomp_append_newLine _ (by simpa using hlast)

end Text

/-- Plain text is code as it stands. -/
theorem codePart_of_plain {cs : List Char} (h : Text.Plain cs) : codePart cs = cs := by
  rw [codePart, Text.beforeComment_of_not_mem fun hslash => (h '/' hslash).2 rfl,
    Text.trim_of_plain h]

/-- The characters of names are neither blanks nor slashes. -/
theorem plain_of_isNameChar {c : Char} (h : isNameChar c = true) :
    Text.isBlank c = false ∧ c ≠ '/' := by
  -- By their numbers these characters lie apart from the ranges of blanks.
  have hrange : c.toNat = 36 ∨ c.toNat = 46 ∨ (48 ≤ c.toNat ∧ c.toNat ≤ 58) ∨
      (65 ≤ c.toNat ∧ c.toNat ≤ 122) := by
    have halpha : c.isAlpha = (c.isUpper || c.isLower) := rfl
    have hupper : c.isUpper = decide (c.val ≥ 'A'.val ∧ c.val ≤ 'Z'.val) := rfl
    have hlower : c.isLower = (decide (c.val ≥ 'a'.val) && decide (c.val ≤ 'z'.val)) := rfl
    simp only [isNameChar, Bool.or_eq_true, beq_iff_eq, Char.isAlphanum, halpha, hupper, hlower,
      Char.isDigit, Bool.and_eq_true, decide_eq_true_eq, ge_iff_le,
      UInt32.le_iff_toNat_le] at h
    have hA : 'A'.val.toNat = 65 := rfl
    have hZ : 'Z'.val.toNat = 90 := rfl
    have ha : 'a'.val.toNat = 97 := rfl
    have hz : 'z'.val.toNat = 122 := rfl
    have h0 : '0'.val.toNat = 48 := rfl
    have h9 : '9'.val.toNat = 57 := rfl
    rw [hA, hZ, ha, hz, h0, h9] at h
    rcases h with ((((h | h) | rfl) | rfl) | rfl) | rfl
    · have : c.toNat = c.val.toNat := rfl
      omega
    · have : c.toNat = c.val.toNat := rfl
      omega
    all_goals decide
  constructor
  · simp only [Text.isBlank, Text.blankRanges, List.any_cons, List.any_nil, Bool.or_false,
      Bool.or_eq_false_iff, Bool.and_eq_false_iff, decide_eq_false_iff_not]
    omega
  · rintro rfl
    revert hrange
    decide

theorem isNameChar_of_isName {name : String} (h : isName name = true) {c : Char}
    (hc : c ∈ name.toList) : isNameChar c = true := by
  rw [isName] at h
  split at h
  · cases h
  · next first rest hname =>
      rw [hname] at hc
      simp only [Bool.and_eq_true, List.all_eq_true] at h
      rcases List.mem_cons.mp hc with rfl | hc
      · exact h.1.2
      · exact h.2 c hc

/-- A name is plain text. -/
theorem plain_of_isName {name : String} (h : isName name = true) : Text.Plain name.toList := by
  intro c hc
  exact plain_of_isNameChar (isNameChar_of_isName h hc)

theorem isNameChar_of_mem_repr {n : Nat} {c : Char} (h : c ∈ n.repr.toList) :
    isNameChar c = true := by
  simp only [isNameChar, Char.isAlphanum, Text.isDigit_of_mem_repr h, Bool.or_true, Bool.true_or]

/-- A numeral is plain text. -/
theorem plain_numeral (w : Word) : Text.Plain (Word.numeral w).toList := by
  intro c hc
  exact plain_of_isNameChar (isNameChar_of_mem_repr hc)

namespace Computation

/-- The characters that computations are written with. -/
def alphabet : List Char :=
  ['0', '1', '-', '!', '+', '&', '|', '=', ';', 'A', 'D', 'E', 'G', 'J', 'L', 'M', 'N', 'P', 'Q',
    'T']

theorem dest_mem_alphabet (dest : Dest) :
    ∀ c ∈ dest.mnemonic.toList, c ∈ alphabet ∧ c ≠ '=' ∧ c ≠ ';' := by
  refine List.all_iff_forall_prop.mp ?_
  cases dest <;> decide

theorem comp_mem_alphabet (comp : Comp) :
    ∀ c ∈ comp.mnemonic.toList, c ∈ alphabet ∧ c ≠ '=' ∧ c ≠ ';' := by
  refine List.all_iff_forall_prop.mp ?_
  cases comp with
  | only y | not y | neg y | plusOne y | minusOne y | dPlus y | dMinus y | minusD y | dAnd y
  | dOr y => cases y <;> decide
  | _ => decide

theorem jump_mem_alphabet (jump : Jump) :
    ∀ c ∈ jump.mnemonic.toList, c ∈ alphabet ∧ c ≠ '=' ∧ c ≠ ';' := by
  refine List.all_iff_forall_prop.mp ?_
  cases jump <;> decide

theorem comp_mnemonic_ne_nil (comp : Comp) : comp.mnemonic.toList ≠ [] := by
  cases comp with
  | only y | not y | neg y | plusOne y | minusOne y | dPlus y | dMinus y | minusD y | dAnd y
  | dOr y => cases y <;> decide
  | _ => decide

/-- The text from the computation proper on. -/
def tail (comp : Comp) (jump : Option Jump) : List Char :=
  comp.mnemonic.toList ++ (jump.elim [] fun j => ';' :: j.mnemonic.toList)

theorem toList_render (c : Computation) :
    c.render.toList =
      (c.dest.elim [] fun dest => dest.mnemonic.toList ++ ['=']) ++ tail c.comp c.jump := by
  rcases c with ⟨dest, comp, jump⟩
  cases dest <;> cases jump <;>
    simp [render, tail, String.toList_append]

theorem mem_tail {comp : Comp} {jump : Option Jump} :
    ∀ c ∈ tail comp jump, c ∈ alphabet ∧ c ≠ '=' := by
  intro c hc
  rcases List.mem_append.mp hc with hc | hc
  · exact ⟨(comp_mem_alphabet comp c hc).1, (comp_mem_alphabet comp c hc).2.1⟩
  · cases jump with
    | none => cases hc
    | some j =>
        rcases List.mem_cons.mp hc with rfl | hc
        · decide
        · exact ⟨(jump_mem_alphabet j c hc).1, (jump_mem_alphabet j c hc).2.1⟩

theorem mem_render {c : Computation} : ∀ ch ∈ c.render.toList, ch ∈ alphabet := by
  intro ch hch
  rw [toList_render] at hch
  rcases List.mem_append.mp hch with hch | hch
  · cases hdest : c.dest with
    | none => rw [hdest] at hch; cases hch
    | some dest =>
        rw [hdest] at hch
        rcases List.mem_append.mp hch with hch | hch
        · exact (dest_mem_alphabet dest ch hch).1
        · rw [List.mem_singleton.mp hch]
          decide
  · exact (mem_tail ch hch).1

/-- No character of the alphabet is blank or can be taken for the start of
    anything but a computation. -/
theorem alphabet_spec :
    ∀ c ∈ alphabet, (Text.isBlank c = false ∧ c ≠ '/') ∧ c ≠ '(' ∧ c ≠ '@' :=
  List.all_iff_forall_prop.mp (by decide)

theorem plain_render (c : Computation) : Text.Plain c.render.toList :=
  fun ch hch => (alphabet_spec ch (mem_render ch hch)).1

theorem field_of_alphabet {text : String}
    (h : ∀ c ∈ text.toList, c ∈ alphabet ∧ c ≠ '=' ∧ c ≠ ';') :
    field text.toList = text := by
  rw [field, Text.trim_of_plain fun c hc => (alphabet_spec c (h c hc).1).1, String.ofList_toList]

theorem readDest?_render (c : Computation) :
    readDest? c.render.toList = some (c.dest, tail c.comp c.jump) := by
  rw [toList_render, readDest?]
  cases hdest : c.dest with
  | none =>
      rw [Option.elim_none, List.nil_append,
        Text.cut?_of_not_mem '=' _ fun h => (mem_tail '=' h).2 rfl]
  | some dest =>
      rw [Option.elim_some, List.append_assoc, List.singleton_append,
        Text.cut?_append '=' _ _ fun h => (dest_mem_alphabet dest '=' h).2.1 rfl]
      show Option.map _ (Dest.ofMnemonic? (field dest.mnemonic.toList)) = _
      rw [field_of_alphabet (dest_mem_alphabet dest), Dest.ofMnemonic?_mnemonic]
      rfl

theorem readJump?_tail (comp : Comp) (jump : Option Jump) :
    readJump? (tail comp jump) = some (comp.mnemonic.toList, jump) := by
  rw [tail, readJump?]
  cases jump with
  | none =>
      rw [Option.elim_none, List.append_nil,
        Text.cut?_of_not_mem ';' _ fun h => (comp_mem_alphabet comp ';' h).2.2 rfl]
  | some j =>
      rw [Option.elim_some,
        Text.cut?_append ';' _ _ fun h => (comp_mem_alphabet comp ';' h).2.2 rfl]
      show Option.map _ (Jump.ofMnemonic? (field j.mnemonic.toList)) = _
      rw [field_of_alphabet (jump_mem_alphabet j), Jump.ofMnemonic?_mnemonic]
      rfl

/-- A written computation is read back as itself. -/
theorem parse?_render (c : Computation) : parse? c.render.toList = some c := by
  simp only [parse?, readDest?_render, Option.bind_eq_bind, Option.bind_some, readJump?_tail,
    field_of_alphabet (comp_mem_alphabet c.comp), Comp.ofMnemonic?_mnemonic, Option.pure_def]

end Computation

namespace Instruction

/-- The statement that an instruction makes. -/
def statement? : Instruction → Option Statement
  | .load address => some (.load address.render.toList)
  | .compute c => some (.compute c.render.toList)
  | .label name => some (.label name)
  | .comment _ => none

/-- Only a comment makes no statement. -/
theorem eq_comment_of_statement? {i : Instruction} (h : i.statement? = none) :
    ∃ text, i = .comment text := by
  cases i with
  | comment text => exact ⟨text, rfl⟩
  | _ => cases h

/-- Names are names, and a comment stays on its line. -/
def Legible : Instruction → Prop
  | .load (.symbol name) => isName name = true
  | .label name => isName name = true
  | .comment text => '\n' ∉ text.toList
  | .load (.constant _) | .compute _ => True

instance (i : Instruction) : Decidable i.Legible :=
  match i with
  | .load (.symbol name) => inferInstanceAs (Decidable (isName name = true))
  | .label name => inferInstanceAs (Decidable (isName name = true))
  | .comment text => inferInstanceAs (Decidable ('\n' ∉ text.toList))
  | .load (.constant _) | .compute _ => inferInstanceAs (Decidable True)

theorem plain_render {i : Instruction} (h : i.Legible) (hs : i.statement?.isSome = true) :
    Text.Plain i.render.toList := by
  cases i with
  | load address =>
      have haddress : Text.Plain address.render.toList := by
        cases address with
        | constant value => exact plain_numeral value
        | symbol name => exact plain_of_isName h
      rw [render, String.toList_append]
      exact Text.Plain.append (by decide) haddress
  | compute c => exact Computation.plain_render c
  | label name =>
      rw [render, String.toList_append, String.toList_append]
      exact Text.Plain.append (Text.Plain.append (by decide) (plain_of_isName h)) (by decide)
  | comment text => cases hs

/-- The text of an instruction makes its statement. -/
theorem ofLine?_render {i : Instruction} (h : i.Legible) (hs : i.statement?.isSome = true) :
    Statement.ofLine? i.render.toList = i.statement? := by
  rw [Statement.ofLine?, codePart_of_plain (plain_render h hs)]
  cases i with
  | load address =>
      rw [render, String.toList_append]
      rfl
  | compute c =>
      have hmem := Computation.mem_render (c := c)
      have hne : c.render.toList ≠ [] := by
        rw [Computation.toList_render, Computation.tail]
        intro hnil
        have htail := (List.append_eq_nil_iff.mp hnil).2
        exact Computation.comp_mnemonic_ne_nil c.comp (List.append_eq_nil_iff.mp htail).1
      have hrender : (Instruction.compute c).render = c.render := rfl
      rw [hrender]
      -- The first character decides, and it is neither a bracket nor an at sign.
      split
      · next hnil => exact absurd hnil hne
      · next hparen =>
          exact absurd rfl (Computation.alphabet_spec _ (hmem _ (hparen ▸ List.mem_cons_self))).2.1
      · next hat =>
          exact absurd rfl (Computation.alphabet_spec _ (hmem _ (hat ▸ List.mem_cons_self))).2.2
      · rfl
  | label name =>
      have hlist : (Instruction.label name).render.toList = '(' :: (name.toList ++ [')']) := by
        rw [render, String.toList_append, String.toList_append]
        rfl
      rw [hlist]
      simp only [List.reverse_append, List.reverse_cons, List.reverse_nil, List.nil_append,
        List.cons_append, List.reverse_reverse, String.ofList_toList, statement?]
  | comment text => cases hs

/-- A comment makes no statement, whatever ending is dropped from it. -/
theorem ofLine?_chomp_comment (text : String) :
    Statement.ofLine? (Text.chomp ((comment text).render.toList ++ ['\n'])) = none := by
  have hlist : (comment text).render.toList = '/' :: '/' :: ' ' :: text.toList := by
    rw [render, String.toList_append]
    rfl
  -- Whatever is dropped at the end, the two slashes in front stay.
  have hslashes : ∃ rest,
      Text.chomp ((comment text).render.toList ++ ['\n']) = '/' :: '/' :: rest := by
    rcases Text.chomp_newLine_cases (comment text).render.toList with h | h
    · exact ⟨_, h.trans hlist⟩
    · rw [hlist] at h
      rcases hcs : Text.chomp ((comment text).render.toList ++ ['\n']) with _ | ⟨c, _ | ⟨d, rest⟩⟩
      all_goals rw [hlist] at hcs; rw [hcs] at h; simp at h
      rcases h with ⟨rfl, rfl, -⟩
      exact ⟨rest, rfl⟩
  rcases hslashes with ⟨rest, hrest⟩
  rw [hrest]
  rfl

/-- A written line makes the statement of its instruction. -/
theorem ofLine?_chomp_render {i : Instruction} (h : i.Legible) :
    Statement.ofLine? (Text.chomp (i.render.toList ++ ['\n'])) = i.statement? := by
  cases hs : i.statement? with
  | none =>
      rcases eq_comment_of_statement? hs with ⟨text, rfl⟩
      exact ofLine?_chomp_comment text
  | some statement =>
      have hsome : i.statement?.isSome = true := by rw [hs]; rfl
      -- No carriage return goes lost with the line feed, for there is none.
      have hlast : i.render.toList.getLast? ≠ some '\r' := by
        intro hlast
        have hblank := (plain_render h hsome '\r' (List.mem_of_getLast? hlast)).1
        exact absurd hblank (by decide)
      rw [Text.chomp_append_newLine _ hlast, ofLine?_render h hsome, hs]

/-- A written line is one line. -/
theorem newLine_not_mem_render {i : Instruction} (h : i.Legible) : '\n' ∉ i.render.toList := by
  cases hs : i.statement? with
  | none =>
      rcases eq_comment_of_statement? hs with ⟨text, rfl⟩
      rw [render, String.toList_append]
      intro hmem
      rcases List.mem_append.mp hmem with hmem | hmem
      · exact absurd hmem (by decide)
      · exact h hmem
  | some statement =>
      intro hmem
      have hblank := (plain_render h (by rw [hs]; rfl) '\n' hmem).1
      exact absurd hblank (by decide)

end Instruction

theorem map_statement_ofNumbered? (ls : List (List Char)) (start : Nat) :
    ((ls.zipIdx start).filterMap NumberedStatement.ofNumbered?).map NumberedStatement.statement =
      ls.filterMap Statement.ofLine? := by
  induction ls generalizing start with
  | nil => rfl
  | cons l ls ih =>
      rw [List.zipIdx_cons, List.filterMap_cons, List.filterMap_cons,
        NumberedStatement.ofNumbered?]
      cases hl : Statement.ofLine? l with
      | none => exact ih (start + 1)
      | some statement =>
          rw [← ih (start + 1)]
          rfl

/-- Written instructions make their statements, in order. -/
theorem statements_unlines {is : List Instruction} (h : ∀ i ∈ is, i.Legible) :
    (statements (Text.unlines (is.map Instruction.render))).map NumberedStatement.statement =
      is.filterMap Instruction.statement? := by
  have hlines : ∀ line ∈ is.map Instruction.render, '\n' ∉ line.toList := by
    intro line hline
    rcases List.mem_map.mp hline with ⟨i, hi, rfl⟩
    exact Instruction.newLine_not_mem_render (h i hi)
  rw [statements, map_statement_ofNumbered?, Text.lines_unlines_chomp _ hlines, List.map_map,
    List.filterMap_map]
  refine List.filterMap_congr ?_
  intro i hi
  simp only [Function.comp_apply]
  exact Instruction.ofLine?_chomp_render (h i hi)

theorem newLine_not_mem_repr (n : Nat) : '\n' ∉ n.repr.toList := by
  intro hmem
  exact absurd (Text.isDigit_of_mem_repr hmem) (by decide)

/-- The texts that a message quotes. -/
def CommandError.payload : CommandError → List String
  | .unknownCommand keyword => [keyword]
  | .unsupportedSegment command segment => [command, segment]
  | .popConstant => []
  | .wrongOperandCount command _ _ => [command]
  | .invalidIndex value => [value]
  | .indexOutOfRange segment _ _ => [segment]
  | .invalidName name => [name]

/-- A message is one line if what it quotes is. -/
theorem CommandError.newLine_not_mem_message {cause : CommandError}
    (h : ∀ text ∈ cause.payload, '\n' ∉ text.toList) : '\n' ∉ cause.message.toList := by
  have happend : ∀ {s t : String}, '\n' ∉ s.toList → '\n' ∉ t.toList → '\n' ∉ (s ++ t).toList := by
    intro s t hs ht hmem
    rw [String.toList_append] at hmem
    exact (List.mem_append.mp hmem).elim hs ht
  cases cause with
  | unknownCommand keyword =>
      exact happend (happend (by decide) (h _ (by simp [payload]))) (by decide)
  | unsupportedSegment command segment =>
      exact happend (happend (happend (happend (by decide) (h _ (by simp [payload]))) (by decide))
        (h _ (by simp [payload]))) (by decide)
  | popConstant => decide
  | wrongOperandCount command expected found =>
      exact happend (happend (happend (happend (happend (by decide) (h _ (by simp [payload])))
        (by decide)) (newLine_not_mem_repr expected)) (by decide)) (newLine_not_mem_repr found)
  | invalidIndex value =>
      exact happend (happend (by decide) (h _ (by simp [payload]))) (by decide)
  | indexOutOfRange segment index max =>
      exact happend (happend (happend (happend (happend (h _ (by simp [payload])) (by decide))
        (newLine_not_mem_repr _)) (by decide)) (newLine_not_mem_repr _)) (by decide)
  | invalidName name =>
      exact happend (happend (by decide) (h _ (by simp [payload]))) (by decide)

namespace Block

/-- The texts that the block's message quotes. -/
def payload (block : Block) : List String :=
  match block.body with
  | .ok _ => []
  | .error cause => cause.payload

/-- Every line of the block's listing is legible: what is shown as a comment is
    one line, and every name in the code is a name. -/
structure Printable (block : Block) : Prop where
  source : '\n' ∉ block.source.toList
  unit : '\n' ∉ block.location.unit.toList
  payload : ∀ text ∈ block.payload, '\n' ∉ text.toList
  code : ∀ i ∈ block.instructions, i.Legible

instance (block : Block) : Decidable block.Printable :=
  decidable_of_iff ('\n' ∉ block.source.toList ∧ '\n' ∉ block.location.unit.toList ∧
      (∀ text ∈ block.payload, '\n' ∉ text.toList) ∧ ∀ i ∈ block.instructions, i.Legible)
    ⟨fun h => ⟨h.1, h.2.1, h.2.2.1, h.2.2.2⟩, fun h => ⟨h.source, h.unit, h.payload, h.code⟩⟩

theorem legible_errorComments {block : Block} (hunit : '\n' ∉ block.location.unit.toList)
    (hpayload : ∀ text ∈ block.payload, '\n' ∉ text.toList) :
    ∀ i ∈ block.errorComments, i.Legible := by
  intro i hi
  rw [errorComments] at hi
  split at hi
  · cases hi
  · next cause hbody =>
      rw [payload, hbody] at hpayload
      rw [List.mem_singleton.mp hi]
      simp only [Instruction.Legible, Location.render, String.toList_append, List.mem_append,
        hunit, newLine_not_mem_repr, CommandError.newLine_not_mem_message hpayload, or_false]
      decide

theorem legible_listing {block : Block} (echo : Bool) (h : block.Printable) :
    ∀ i ∈ block.listing echo, i.Legible := by
  intro i hi
  simp only [listing, List.mem_append] at hi
  rcases hi with (hi | hi) | hi
  · split at hi
    · rw [List.mem_singleton.mp hi]
      exact h.source
    · cases hi
  · exact legible_errorComments h.unit h.payload i hi
  · exact h.code i hi

/-- The comments of a listing make no statements. -/
theorem filterMap_statement?_listing (echo : Bool) (block : Block) :
    (block.listing echo).filterMap Instruction.statement? =
      block.instructions.filterMap Instruction.statement? := by
  have hsource : (if echo then [Instruction.comment block.source] else []).filterMap
      Instruction.statement? = [] := by
    cases echo <;> rfl
  have herror : block.errorComments.filterMap Instruction.statement? = [] := by
    rw [errorComments]
    split <;> rfl
  rw [listing, List.filterMap_append, List.filterMap_append, hsource, herror, List.nil_append,
    List.nil_append]

end Block

/-- A listing makes the statements of its instructions, with or without the
    source lines in front. -/
theorem statements_renderText (echo : Bool) {blocks : List Block}
    (h : ∀ block ∈ blocks, block.Printable) :
    (statements (renderText echo blocks)).map NumberedStatement.statement =
      (blocks.flatMap Block.instructions).filterMap Instruction.statement? := by
  have hlegible : ∀ i ∈ blocks.flatMap (Block.listing echo), i.Legible := by
    intro i hi
    rcases List.mem_flatMap.mp hi with ⟨block, hblock, hi⟩
    exact Block.legible_listing echo (h block hblock) i hi
  rw [renderText, statements_unlines hlegible, List.filterMap_flatMap, List.filterMap_flatMap]
  exact congrArg blocks.flatMap (funext (Block.filterMap_statement?_listing echo))

end HackVM
