import HackVM.Proofs.Lexical
import HackVM.Proofs.Statics

/-!
# Lines of Assembly Text

What the two passes of the assembler make of a text, line by line.

The passes are described elsewhere by the statements of a text. Here the lines
are sorted by what is written on them, without the assembler: a line is blank, or
it is a label in brackets, or it is an instruction, and an instruction with an at
sign in front uses a symbol or a number. The address of a label is found by
counting instruction lines, the words of the code by going through them. Were a
line sorted in one way by the first pass and in another by the second, every label
behind it would lead to the wrong word.

Variables are listed in the order of their first use, which is the order of the
lines that use them first. A line uses one symbol at most, so no two variables
tie, and there is only one such list.

## Main definitions

* `declaresLabel`, `usesSymbol`, `isInstructionLine`: The kinds of lines.
* `machineCells`: The names of the machine.
* `LineWord`: The word that a line becomes.
* `FirstUses`: The variables of a text, in the order of their first use.

## Theorems

* `sorted_ofLine?`: The assembler sorts lines by their kinds.
* `pairwise_findIdx_eraseDups`: Names without repetition, in order of first use.
* `Image.Realizes.lineWords`: The words of an image are those of its lines.
* `firstUses_variableNames`: The assembler's variables are those of the text.
* `passes_agree`: Labels, words and variables of an assembled text.
-/

namespace HackVM

/-- The line declares a label: a name in brackets. -/
def declaresLabel (line : List Char) (name : String) : Bool :=
  codePart line == '(' :: (name.toList ++ [')'])

/-- The line uses a symbol: what stands behind an at sign and is no row of digits. -/
def usesSymbol (line : List Char) (name : String) : Bool :=
  codePart line == '@' :: name.toList && !decide (IsDigits name)

/-- The line is an instruction: it holds something, and not in brackets. -/
def isInstructionLine (line : List Char) : Bool :=
  !(codePart line).isEmpty &&
    !((codePart line).head? == some '(' && (codePart line).getLast? == some ')')

/-- The names of the machine and their addresses: seven pointers and devices and
    sixteen registers. -/
def machineCells : List (String × Word) :=
  [("SP", 0), ("LCL", 1), ("ARG", 2), ("THIS", 3), ("THAT", 4), ("SCREEN", 16384),
    ("KBD", 24576), ("R0", 0), ("R1", 1), ("R2", 2), ("R3", 3), ("R4", 4), ("R5", 5), ("R6", 6),
    ("R7", 7), ("R8", 8), ("R9", 9), ("R10", 10), ("R11", 11), ("R12", 12), ("R13", 13),
    ("R14", 14), ("R15", 15)]

/-- The word that an instruction line becomes, where a table tells the symbols. -/
inductive LineWord (symbols : SymbolTable) (line : List Char) : CodeWord → Prop
  | number {digits : String} {value : Word} : codePart line = '@' :: digits.toList →
      IsNumber digits value → value.toNat ≤ 32767 → LineWord symbols line (.load value)
  | symbol {name : String} {value : Word} : usesSymbol line name = true →
      symbols.find? name = some value → LineWord symbols line (.load value)
  | compute {c : Computation} : (codePart line).head? ≠ some '@' →
      Computation.parse? (codePart line) = some c → LineWord symbols line (.compute c)

/-- The assembler starts with the names of the machine. -/
theorem predefinedSymbols_eq : predefinedSymbols = machineCells := rfl

theorem isPredefined_iff {name : String} :
    isPredefined name = true ↔ name ∈ machineCells.map Prod.fst := by
  rw [isPredefined, predefinedSymbols_eq, List.any_eq_true, List.mem_map]
  simp only [beq_iff_eq]

section Sorting

variable {line : List Char}

/-- A line uses a symbol if the assembler would not read it as a number. -/
theorem usesSymbol_iff {name : String} : usesSymbol line name = true ↔
    codePart line = '@' :: name.toList ∧ Text.isNumeral name.toList = false := by
  rw [usesSymbol, Bool.and_eq_true, beq_iff_eq, Bool.not_eq_true', decide_eq_false_iff_not,
    ← isNumeral_iff, Bool.not_eq_true]

/-- What a line holds, by its first and its last character. -/
inductive Sorted (line : List Char) : Option Statement → Prop
  | blank : codePart line = [] → Sorted line none
  | label {name : String} : codePart line = '(' :: (name.toList ++ [')']) →
      Sorted line (some (.label name))
  | load {operand : List Char} : codePart line = '@' :: operand →
      Sorted line (some (.load operand))
  | compute : isInstructionLine line = true → (codePart line).head? ≠ some '@' →
      Sorted line (some (.compute (codePart line)))

theorem not_isInstructionLine_of_brackets {name : List Char}
    (h : codePart line = '(' :: (name ++ [')'])) : isInstructionLine line = false := by
  have hlast : ('(' :: (name ++ [')'])).getLast? = some ')' := by
    rw [← List.cons_append, List.getLast?_concat]
  rw [isInstructionLine, h, hlast]
  rfl

/-- The assembler sorts lines by their first and their last character. -/
theorem sorted_ofLine? (line : List Char) : Sorted line (Statement.ofLine? line) := by
  unfold Statement.ofLine?
  split
  · next hcode => exact .blank hcode
  · next rest hcode =>
      split
      · next name hrest =>
          refine .label ?_
          rw [hcode, String.toList_ofList, ← List.reverse_cons, ← hrest, List.reverse_reverse]
      · -- A bracket that is not closed makes an instruction.
        next hrest =>
          have hlast : ('(' :: rest).getLast? ≠ some ')' := by
            rw [← List.head?_reverse, List.reverse_cons]
            cases hreverse : rest.reverse with
            | nil => decide
            | cons c name =>
                intro hc
                cases hc
                exact hrest name hreverse
          rw [← hcode]
          refine .compute ?_ ?_
          · rw [isInstructionLine, hcode, beq_eq_false_iff_ne.mpr hlast, Bool.and_false]
            rfl
          · rw [hcode, List.head?_cons]
            decide
  · next operand hcode => exact .load hcode
  · next hblank hopen hat =>
      cases hcode : codePart line with
      | nil => exact absurd hcode hblank
      | cons c rest =>
          have hne : c ≠ '(' := by
            rintro rfl
            exact hopen rest hcode
          rw [← hcode]
          refine .compute ?_ ?_
          · rw [isInstructionLine, hcode, List.head?_cons]
            simp [hne]
          · rw [hcode, List.head?_cons]
            rintro ⟨⟩
            exact hat rest hcode

/-- The lines that hold a label are those that declare it. -/
theorem ofLine?_eq_label_iff {name : String} :
    Statement.ofLine? line = some (.label name) ↔ declaresLabel line name = true := by
  have hsorted := sorted_ofLine? line
  rw [declaresLabel, beq_iff_eq]
  generalize Statement.ofLine? line = st? at hsorted ⊢
  cases hsorted with
  | blank hcode => simp [hcode]
  | label hcode => simp [hcode, String.toList_inj]
  | load hcode => simp [hcode]
  | compute hline =>
      constructor
      · intro h
        cases h
      · intro hcode
        rw [not_isInstructionLine_of_brackets hcode] at hline
        cases hline

/-- The lines that hold the load of a symbol are those that use it. -/
theorem operandName?_ofLine? {name : String} :
    (Statement.ofLine? line).bind Statement.operandName? = some name ↔
      usesSymbol line name = true := by
  have hsorted := sorted_ofLine? line
  rw [usesSymbol_iff]
  generalize Statement.ofLine? line = st? at hsorted ⊢
  cases hsorted with
  | blank hcode => simp [hcode]
  | label hcode => simp [hcode, Statement.operandName?]
  | load hcode =>
      simp only [hcode, Option.bind_some, Statement.operandName?, List.cons.injEq, true_and,
        Option.ite_none_left_eq_some, Option.some.injEq]
      constructor
      · rintro ⟨hnumeral, rfl⟩
        rw [String.toList_ofList]
        exact ⟨rfl, by simpa using hnumeral⟩
      · rintro ⟨rfl, hnumeral⟩
        exact ⟨by simpa using hnumeral, String.ofList_toList⟩
  | compute hline hat =>
      constructor
      · intro h
        cases h
      · rintro ⟨hcode, -⟩
        rw [hcode] at hat
        exact absurd rfl hat

/-- The lines that become a word are the instruction lines. -/
theorem any_isCode_ofLine? (line : List Char) :
    (Statement.ofLine? line).any Statement.isCode = isInstructionLine line := by
  have hsorted := sorted_ofLine? line
  generalize Statement.ofLine? line = st? at hsorted ⊢
  cases hsorted with
  | blank hcode => simp [isInstructionLine, hcode]
  | label hcode => rw [not_isInstructionLine_of_brackets hcode]; rfl
  | load hcode => simp [isInstructionLine, hcode, Statement.isCode]
  | compute hline => exact hline.symm

/-- The word of the statement on a line is the word that the line becomes. -/
theorem lineWord_of_word? {symbols : SymbolTable} {st : Statement} {w : CodeWord}
    (hline : Statement.ofLine? line = some st) (hread : st.Readable)
    (hw : st.word? symbols = some w) : LineWord symbols line w := by
  have hsorted := sorted_ofLine? line
  have huses := @operandName?_ofLine? line
  rw [hline] at hsorted huses
  cases hsorted with
  | label hcode => cases hw
  | load hcode =>
      rename_i operand
      by_cases hnumeral : Text.isNumeral operand = true
      · rw [Statement.word?, if_pos hnumeral] at hw
        cases hw
        have hle : Text.numeralValue operand ≤ 32767 := hread.2 hnumeral
        have hvalue : (BitVec.ofNat 16 (Text.numeralValue operand)).toNat =
            Text.numeralValue operand := by
          rw [BitVec.toNat_ofNat, Nat.mod_eq_of_lt (by omega)]
        have hnumber : Word.ofNumeral? (String.ofList operand).toList =
            some (BitVec.ofNat 16 (Text.numeralValue operand)) := by
          have hlimit : Text.numeralValue operand ≤ 65535 := by omega
          simp only [String.toList_ofList, Word.ofNumeral?, Text.readNumeral?, hnumeral, hlimit,
            decide_true, Bool.and_self, if_true, Option.map_some]
        rw [← @String.toList_ofList operand] at hcode
        exact .number hcode (ofNumeral?_eq_some_iff.mp hnumber) (hvalue.trans_le hle)
      · rw [Statement.word?_load hnumeral] at hw
        rcases Option.map_eq_some_iff.mp hw with ⟨address, hfind, rfl⟩
        exact .symbol (huses.mp (Statement.operandName?_load hnumeral)) hfind
  | compute _ hat =>
      rcases Option.map_eq_some_iff.mp hw with ⟨c, hc, rfl⟩
      exact .compute hat hc

/-- There is only one operand behind an at sign. -/
theorem operand_unique {x y : String} (hx : codePart line = '@' :: x.toList)
    (hy : codePart line = '@' :: y.toList) : x = y :=
  String.toList_inj.mp (List.cons.inj (hx.symm.trans hy)).2

/-- A line that uses a symbol loads what the table says. -/
theorem LineWord.eq_load {symbols : SymbolTable} {w : CodeWord} {name : String}
    (h : LineWord symbols line w) (huses : usesSymbol line name = true) :
    ∃ value, symbols.find? name = some value ∧ w = .load value := by
  rcases usesSymbol_iff.mp huses with ⟨hcode, hnumeral⟩
  cases h with
  | number hdigits hnumber =>
      cases operand_unique hdigits hcode
      rw [hnumber.isNumeral] at hnumeral
      cases hnumeral
  | symbol hother hfind =>
      cases operand_unique (usesSymbol_iff.mp hother).1 hcode
      exact ⟨_, hfind, rfl⟩
  | compute hat =>
      rw [hcode] at hat
      exact absurd rfl hat

/-- A line with a number loads that number. -/
theorem LineWord.eq_load_number {symbols : SymbolTable} {w : CodeWord} {digits : String}
    {value : Word} (h : LineWord symbols line w) (hcode : codePart line = '@' :: digits.toList)
    (hnumber : IsNumber digits value) : w = .load value := by
  cases h with
  | number hother hnumber' =>
      cases operand_unique hother hcode
      rw [BitVec.eq_of_toNat_eq (hnumber'.2.2.symm.trans hnumber.2.2)]
  | symbol huses =>
      rcases usesSymbol_iff.mp huses with ⟨hother, hnumeral⟩
      cases operand_unique hother hcode
      rw [hnumber.isNumeral] at hnumeral
      cases hnumeral
  | compute hat =>
      rw [hcode] at hat
      exact absurd rfl hat

end Sorting

section Order

variable {α β : Type} [DecidableEq β]

/-- What is not found at the head is found one place further on. -/
theorem findIdx_cons_of_ne {g : α → Option β} {a : α} {x : β} (h : g a ≠ some x) (as : List α) :
    (a :: as).findIdx (fun b => g b == some x) = as.findIdx (fun b => g b == some x) + 1 := by
  rw [List.findIdx_cons, beq_eq_false_iff_ne.mpr h]
  rfl

/-- Names without repetition come in the order of their first use. -/
theorem pairwise_findIdx_eraseDups (g : α → Option β) (p : β → Bool) (as : List α) :
    ((as.filterMap g).filter p).eraseDups.Pairwise fun x y =>
      as.findIdx (fun a => g a == some x) < as.findIdx (fun a => g a == some y) := by
  -- What was used before is filtered out of the rest, so the filter varies.
  induction as generalizing p with
  | nil => exact List.Pairwise.nil
  | cons a as ih =>
      have hlater : ∀ (q : β → Bool), (∀ x, q x = true → g a ≠ some x) →
          ((as.filterMap g).filter q).eraseDups.Pairwise fun x y =>
            (a :: as).findIdx (fun b => g b == some x) <
              (a :: as).findIdx (fun b => g b == some y) := by
        intro q hq
        refine (ih q).imp_of_mem ?_
        intro x y hx hy hlt
        rw [List.mem_eraseDups, List.mem_filter] at hx hy
        rw [findIdx_cons_of_ne (hq x hx.2), findIdx_cons_of_ne (hq y hy.2)]
        omega
      cases ha : g a with
      | none =>
          rw [List.filterMap_cons_none ha]
          refine hlater p ?_
          intro x _
          rw [ha]
          exact Option.some_ne_none x |>.symm
      | some b =>
          rw [List.filterMap_cons_some ha, List.filter_cons]
          by_cases hb : p b = true
          · rw [if_pos hb, List.eraseDups_cons, List.filter_filter, List.pairwise_cons]
            have hrest : ∀ x, (!x == b && p x) = true → g a ≠ some x := by
              intro x hx heq
              rw [ha] at heq
              cases heq
              simp at hx
            refine ⟨?_, hlater _ hrest⟩
            intro y hy
            rw [List.mem_eraseDups, List.mem_filter] at hy
            rw [findIdx_cons_of_ne (hrest y hy.2), List.findIdx_cons, ha, beq_self_eq_true]
            exact Nat.succ_pos _
          · rw [if_neg hb]
            refine hlater p ?_
            intro x hx heq
            rw [ha] at heq
            cases heq
            exact hb hx

end Order

/-- The variables of lines: the symbols that are used and not declared and are no
    names of the machine, in the order of their first use. -/
structure FirstUses (lines : List (List Char)) (names : List String) : Prop where
  mem_iff : ∀ name, name ∈ names ↔ name ∉ machineCells.map Prod.fst ∧
    (∀ line ∈ lines, declaresLabel line name = false) ∧ ∃ line ∈ lines, usesSymbol line name = true
  order : names.Pairwise fun x y =>
    lines.findIdx (usesSymbol · x) < lines.findIdx (usesSymbol · y)

section Lines

variable {lines : List (List Char)}

theorem codeCount_lines (lines : List (List Char)) :
    codeCount (lines.filterMap Statement.ofLine?) = lines.countP isInstructionLine := by
  rw [codeCount, List.countP_filterMap]
  congr 1
  funext line
  rw [← any_isCode_ofLine?]
  cases Statement.ofLine? line <;> rfl

theorem mem_labelNames_lines {name : String} :
    name ∈ labelNames (lines.filterMap Statement.ofLine?) ↔
      ∃ line ∈ lines, declaresLabel line name = true := by
  simp only [labelNames, List.mem_filterMap, ← ofLine?_eq_label_iff]
  constructor
  · rintro ⟨st, ⟨line, hline, hst⟩, hname⟩
    cases st with
    | label other =>
        cases hname
        exact ⟨line, hline, hst⟩
    | _ => cases hname
  · rintro ⟨line, hline, hst⟩
    exact ⟨_, ⟨line, hline, hst⟩, rfl⟩

/-- The assembler's variables are those of the lines. -/
theorem firstUses_variableNames (lines : List (List Char)) :
    FirstUses lines (variableNames (lines.filterMap Statement.ofLine?)) := by
  have huses : ∀ name, (fun line => (Statement.ofLine? line).bind Statement.operandName? ==
      some name) = (usesSymbol · name) := by
    intro name
    funext line
    rw [Bool.eq_iff_iff, beq_iff_eq]
    exact operandName?_ofLine?
  constructor
  · intro name
    have hlabel : (labelNames (lines.filterMap Statement.ofLine?)).contains name = false ↔
        ∀ line ∈ lines, declaresLabel line name = false := by
      rw [List.contains_eq_mem, decide_eq_false_iff_not, mem_labelNames_lines]
      simp
    rw [variableNames, List.mem_eraseDups, List.mem_filter, List.filterMap_filterMap,
      List.mem_filterMap, ← isPredefined_iff, isPredefined_eq_isSome_lookup, ← hlabel]
    simp only [operandName?_ofLine?, Bool.and_eq_true, Bool.not_eq_true', Bool.not_eq_true,
      Option.isSome_eq_false_iff]
    exact and_comm.trans and_assoc
  · have horder := pairwise_findIdx_eraseDups
      (fun line => (Statement.ofLine? line).bind Statement.operandName?)
      (fun name => (predefinedSymbols.lookup name).isNone &&
        !(labelNames (lines.filterMap Statement.ofLine?)).contains name) lines
    simp only [huses] at horder
    rw [variableNames, List.filterMap_filterMap]
    exact horder

theorem forall₂_filter_filterMap {α β : Type} {f : α → Option β} {p : α → Bool}
    {P : α → β → Prop} {as : List α} (hsome : ∀ a ∈ as, (f a).isSome = p a)
    (hP : ∀ a ∈ as, ∀ b, f a = some b → P a b) :
    List.Forall₂ P (as.filter p) (as.filterMap f) := by
  induction as with
  | nil => exact List.Forall₂.nil
  | cons a as ih =>
      have hrest := ih (fun b hb => hsome b (List.mem_cons_of_mem a hb))
        fun b hb => hP b (List.mem_cons_of_mem a hb)
      have ha := hsome a List.mem_cons_self
      rw [List.filter_cons, ← ha]
      cases hf : f a with
      | none =>
          rw [List.filterMap_cons_none hf]
          exact hrest
      | some b =>
          rw [List.filterMap_cons_some hf]
          exact List.Forall₂.cons (hP a List.mem_cons_self b hf) hrest

namespace Image.Realizes

variable {image : Image}

/-- The words of an image are those of its instruction lines, in order. -/
theorem lineWords (h : image.Realizes (lines.filterMap Statement.ofLine?)) :
    List.Forall₂ (LineWord image.symbols) (lines.filter isInstructionLine) image.code.toList := by
  rw [h.code, List.filterMap_filterMap]
  refine forall₂_filter_filterMap ?_ ?_
  · intro line hline
    rw [← any_isCode_ofLine?]
    cases hst : Statement.ofLine? line with
    | none => rfl
    | some st => exact h.isSome_word? st (List.mem_filterMap.mpr ⟨line, hline, hst⟩)
  · intro line hline w hw
    rcases Option.bind_eq_some_iff.mp hw with ⟨st, hst, hword⟩
    exact lineWord_of_word? hst (h.readable st (List.mem_filterMap.mpr ⟨line, hline, hst⟩)) hword

theorem lineWord (h : image.Realizes (lines.filterMap Statement.ofLine?)) {place : Nat}
    {line : List Char} {w : CodeWord} (hline : (lines.filter isInstructionLine)[place]? = some line)
    (hw : image.code[place]? = some w) : LineWord image.symbols line w := by
  rcases exists_getElem?_of_forall₂ h.lineWords hline with ⟨other, hother, hword⟩
  rw [Array.getElem?_toList, hw] at hother
  cases hother
  exact hword

/-- Wherever a symbol is used, what the table says is loaded. -/
theorem code_of_usesSymbol (h : image.Realizes (lines.filterMap Statement.ofLine?)) {place : Nat}
    {line : List Char} {name : String}
    (hline : (lines.filter isInstructionLine)[place]? = some line)
    (huses : usesSymbol line name = true) :
    ∃ value, image.symbols.find? name = some value ∧
      image.code[place]? = some (.load value) := by
  rcases exists_getElem?_of_forall₂ h.lineWords hline with ⟨w, hw, hword⟩
  rcases hword.eq_load huses with ⟨value, hfind, rfl⟩
  rw [Array.getElem?_toList] at hw
  exact ⟨value, hfind, hw⟩

/-- There are as many words as instruction lines. -/
theorem size_eq_countP (h : image.Realizes (lines.filterMap Statement.ofLine?)) :
    image.code.size = lines.countP isInstructionLine := by
  rw [List.countP_eq_length_filter, h.lineWords.length_eq, Array.length_toList]

/-- A label stands for the number of instruction lines before it. It is declared
    once. -/
theorem label_line {before after : List (List Char)} {line : List Char} {name : String}
    (h : image.Realizes ((before ++ line :: after).filterMap Statement.ofLine?))
    (hline : declaresLabel line name = true) :
    (∃ address, image.symbols.find? name = some address ∧
      address.toNat = before.countP isInstructionLine) ∧
    ∀ other ∈ before ++ after, declaresLabel other name = false := by
  rw [List.filterMap_append, List.filterMap_cons_some (ofLine?_eq_label_iff.mpr hline)] at h
  rcases h.find?_label with ⟨hfind, hbefore, hafter⟩
  rw [codeCount_lines] at hfind
  rw [mem_labelNames_lines] at hbefore hafter
  refine ⟨Option.map_eq_some_iff.mp hfind, ?_⟩
  intro other hother
  rw [← Bool.not_eq_true]
  intro hdeclares
  rcases List.mem_append.mp hother with hother | hother
  · exact hbefore ⟨other, hother, hdeclares⟩
  · exact hafter ⟨other, hother, hdeclares⟩

/-- The table knows the names of the machine, the labels and the variables, and
    nothing else. -/
theorem isSome_find?_iff (h : image.Realizes (lines.filterMap Statement.ofLine?))
    (name : String) :
    (image.symbols.find? name).isSome = true ↔ name ∈ machineCells.map Prod.fst ∨
      (∃ line ∈ lines, declaresLabel line name = true) ∨
      name ∈ variableNames (lines.filterMap Statement.ofLine?) := by
  rw [h.find?, symbolAddress?, Option.isSome_or, Option.isSome_or, Option.isSome_map,
    Option.isSome_map, Bool.or_eq_true, Bool.or_eq_true, isSome_labelPosition?,
    List.isSome_idxOf?, mem_labelNames_lines, ← isPredefined_iff, isPredefined_eq_isSome_lookup]

end Image.Realizes

theorem statements_eq_lines (text : String) :
    (statements text).map (·.statement) = (Text.lines text).filterMap Statement.ofLine? :=
  map_statement_ofNumbered? (Text.lines text) 1

/-- The variables of an assembled text have the cells from sixteen on, one after the
    other. -/
theorem variable_cells {text : String} {image : Image} (h : assemble text = .ok image)
    {place : Nat} {name : String}
    (hname : (variableNames ((Text.lines text).filterMap Statement.ofLine?))[place]? =
      some name) :
    ∃ cell, image.symbols.find? name = some cell ∧ cell.toNat = 16 + place := by
  have hrealizes := realizes_of_assemble h
  have hcells := length_variableNames_of_assemble h
  have horder := (firstUses_variableNames (Text.lines text)).order
  rw [statements_eq_lines] at hrealizes hcells
  rcases List.getElem?_eq_some_iff.mp hname with ⟨hlt, rfl⟩
  -- Names that come one after the other are not the same.
  have hnodup : (variableNames ((Text.lines text).filterMap Statement.ofLine?)).Nodup :=
    horder.imp fun hless heq => by rw [heq] at hless; exact Nat.lt_irrefl _ hless
  rcases hrealizes.find?_variable hcells (List.getElem_mem hlt) with ⟨cell, hfind, hcell⟩
  rw [hnodup.idxOf_getElem place hlt] at hcell
  exact ⟨cell, hfind, hcell⟩

end Lines

/-- The two passes of the assembler agree on every text that is assembled. There are
    as many words as instruction lines, and each word is that of its line. A label
    stands for the number of instruction lines before it, and is declared once. The
    names of the machine keep their addresses. The symbols left over are the ones
    that are used and not declared, and have the cells from sixteen on in the order
    of their first use. Wherever a symbol is used, the same value is loaded. -/
theorem passes_agree {text : String} {image : Image} (h : assemble text = .ok image) :
    image.code.size = (Text.lines text).countP isInstructionLine ∧
    List.Forall₂ (LineWord image.symbols) ((Text.lines text).filter isInstructionLine)
      image.code.toList ∧
    (∀ before line after name, Text.lines text = before ++ line :: after →
      declaresLabel line name = true →
      (∃ address, image.symbols.find? name = some address ∧
        address.toNat = before.countP isInstructionLine ∧ address.toNat ≤ image.code.size) ∧
      ∀ other ∈ before ++ after, declaresLabel other name = false) ∧
    (∀ entry ∈ machineCells, image.symbols.find? entry.1 = some entry.2) ∧
    (∃ names, FirstUses (Text.lines text) names ∧
      (∀ place name, names[place]? = some name →
        ∃ cell, image.symbols.find? name = some cell ∧ cell.toNat = 16 + place) ∧
      ∀ name, (image.symbols.find? name).isSome = true ↔ name ∈ machineCells.map Prod.fst ∨
        (∃ line ∈ Text.lines text, declaresLabel line name = true) ∨ name ∈ names) ∧
    ∀ name, ∃ value, ∀ (place : Nat) line,
      ((Text.lines text).filter isInstructionLine)[place]? = some line →
      usesSymbol line name = true → image.code[place]? = some (.load value) := by
  have hrealizes := realizes_of_assemble h
  rw [statements_eq_lines] at hrealizes
  have hsize := hrealizes.size_eq_countP
  have hwords := hrealizes.lineWords
  refine ⟨hsize, hwords, ?_, Image.knowsMachine_of_realizes hrealizes, ?_, ?_⟩
  · intro before line after name hlines hline
    rw [hlines] at hrealizes hsize
    rcases hrealizes.label_line hline with ⟨⟨address, hfind, haddress⟩, honce⟩
    refine ⟨⟨address, hfind, haddress, ?_⟩, honce⟩
    rw [haddress, hsize, List.countP_append]
    exact Nat.le_add_right _ _
  · exact ⟨_, firstUses_variableNames _, fun _ _ hname => variable_cells h hname,
      hrealizes.isSome_find?_iff⟩
  · intro name
    refine ⟨(image.symbols.find? name).getD 0, ?_⟩
    intro place line hline huses
    rcases hrealizes.code_of_usesSymbol hline huses with ⟨value, hfind, hvalue⟩
    rw [hfind]
    exact hvalue

/-- A text with a label that is used before it is declared, a label that is a
    numeral, one without a name, and variables in between. -/
def scatteredText : String :=
  "// start\n@END\n(5)\n  @i // counter\nM=1\n\n@5\n@j\r\n(END)\n@i\n@SP\n()\n0;JMP"

theorem passes_agree_scatteredText :
    ∃ image, assemble scatteredText = .ok image ∧ image.code.size = 8 ∧
      (∃ address, image.symbols.find? "END" = some address ∧ address.toNat = 5) ∧
      (∃ value, image.code[1]? = some (.load value) ∧ image.code[5]? = some (.load value)) ∧
      image.code[3]? = some (.load 5) ∧ image.code[6]? = some (.load 0) := by
  have hlines : Text.lines scatteredText = ["// start".toList, "@END".toList, "(5)".toList,
      "  @i // counter".toList, "M=1".toList, [], "@5".toList, "@j".toList, "(END)".toList,
      "@i".toList, "@SP".toList, "()".toList, "0;JMP".toList] := by decide +kernel
  have hstatements := statements_eq_lines scatteredText
  rw [hlines] at hstatements
  have hcode : (Text.lines scatteredText).filter isInstructionLine = ["@END".toList,
      "  @i // counter".toList, "M=1".toList, "@5".toList, "@j".toList, "@i".toList, "@SP".toList,
      "0;JMP".toList] := by
    rw [hlines]
    decide
  have hassemble : ∃ image, assemble scatteredText = .ok image :=
    assemble_succeeds hstatements (by decide) (by decide) (by decide) (by decide) (by decide)
  rcases hassemble with ⟨image, himage⟩
  rcases passes_agree himage with ⟨hsize, hwords, hlabels, hmachine, -, hvalues⟩
  rw [hlines] at hsize hlabels
  rw [hcode] at hwords hvalues
  refine ⟨image, himage, hsize.trans (by decide), ?_, ?_, ?_, ?_⟩
  · rcases hlabels _ "(END)".toList _ "END" (List.take_append_drop 8 _).symm (by decide) with
      ⟨⟨address, hfind, haddress, -⟩, -⟩
    exact ⟨address, hfind, haddress.trans (by decide)⟩
  · rcases hvalues "i" with ⟨value, hvalue⟩
    exact ⟨value, hvalue 1 _ rfl (by decide), hvalue 5 _ rfl (by decide)⟩
  · -- A numeral is a number, even if there is a label that reads the same.
    have hnumber : IsNumber "5" 5 := ⟨by decide, by simp, by decide⟩
    rcases exists_getElem?_of_forall₂ hwords (i := 3) rfl with ⟨w, hw, hword⟩
    rw [hword.eq_load_number (by decide) hnumber, Array.getElem?_toList] at hw
    exact hw
  · rcases exists_getElem?_of_forall₂ hwords (i := 6) rfl with ⟨w, hw, hword⟩
    have hpointer : usesSymbol "@SP".toList "SP" = true := by decide
    rcases hword.eq_load hpointer with ⟨value, hfind, rfl⟩
    cases hfind.symm.trans (hmachine ("SP", 0) (by decide))
    rw [Array.getElem?_toList] at hw
    exact hw

end HackVM
