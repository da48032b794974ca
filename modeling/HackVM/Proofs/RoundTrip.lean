import HackVM.Proofs.Layout

/-!
# Assembling a Listing

The assembler undoes the listing.

Any list of blocks can be written down, with or without its source lines, and
the text can be assembled again. What comes out is one word for each executable
instruction, in order, with numbers and computations as they were and every
symbol replaced by what it stands for. That meaning is said here in terms of
the instructions alone: a name of the machine has its fixed address, a label
the number of executable instructions in front of it, wherever the label is
declared, and any other symbol a cell from sixteen on, by its rank among those
symbols in the order of first use.

The conditions are those under which a listing makes sense at all: its lines
are lines, its names are names, its numbers can be loaded, no label is declared
twice or taken from the machine, and neither addresses nor cells run out.

## Main definitions

* `blockCode`: The instructions of blocks.
* `undeclaredSymbols`: The symbols that stand for cells.
* `symbolMeaning`: What a symbol stands for.

## Theorems

* `variableNames_statements`: The assembler's variables are those symbols.
* `symbolAddress?_statements`: The assembler's table gives each its meaning.
* `assemble_renderText`: The assembler undoes the listing.
-/

namespace HackVM

/-- The instructions of blocks, in order. -/
def blockCode (blocks : List Block) : List Instruction :=
  blocks.flatMap Block.instructions

/-- The symbol that an instruction loads. -/
def Instruction.symbol? : Instruction → Option String
  | .load (.symbol name) => some name
  | _ => none

/-- The symbols that are neither names of the machine nor labels, each once, in
    the order of their first use. -/
def undeclaredSymbols (code : List Instruction) : List String :=
  ((code.filterMap Instruction.symbol?).filter fun name =>
    !isPredefined name && !(declaredLabels code).contains name).eraseDups

/-- What a symbol stands for in a list of instructions. -/
def symbolMeaning (code : List Instruction) (name : String) : Word :=
  match predefinedSymbols.lookup name with
  | some address => address
  | none =>
      if Instruction.label name ∈ code then
        BitVec.ofNat 16 (codeSize (code.takeWhile (· != Instruction.label name)))
      else BitVec.ofNat 16 (16 + (undeclaredSymbols code).idxOf name)

theorem isPredefined_eq_isSome_lookup (name : String) :
    isPredefined name = (predefinedSymbols.lookup name).isSome := by
  rw [isPredefined, Bool.eq_iff_iff, List.any_eq_true, List.lookup_isSome_iff]
  constructor
  · rintro ⟨entry, hentry, hname⟩
    exact ⟨entry, hentry, by rw [beq_iff_eq] at hname ⊢; exact hname.symm⟩
  · rintro ⟨entry, hentry, hname⟩
    exact ⟨entry, hentry, by rw [beq_iff_eq] at hname ⊢; exact hname.symm⟩

/-- The assembler's variables are the symbols that are not declared. -/
theorem variableNames_statements {code : List Instruction} (h : ∀ i ∈ code, i.Legible) :
    variableNames (code.filterMap Instruction.statement?) = undeclaredSymbols code := by
  have hnames : (code.filterMap Instruction.statement?).filterMap Statement.operandName? =
      code.filterMap Instruction.symbol? := by
    rw [List.filterMap_filterMap]
    refine List.filterMap_congr fun i hi => ?_
    cases i with
    | load address =>
        cases address with
        | constant value =>
            show (if Text.isNumeral value.toNat.repr.toList = true then none else _) = none
            rw [if_pos (Text.isNumeral_repr _)]
        | symbol name =>
            have hname := not_isNumeral_of_isName (h _ hi)
            show (if Text.isNumeral name.toList = true then none
              else some (String.ofList name.toList)) = some name
            rw [hname, String.ofList_toList]
            rfl
    | compute c => rfl
    | label name => rfl
    | comment text => rfl
  unfold variableNames undeclaredSymbols
  rw [hnames, labelNames_statements]
  congr 2
  funext name
  rw [isPredefined_eq_isSome_lookup, Option.not_isSome]

theorem idxOf?_eq_some_idxOf {names : List String} {name : String} (h : name ∈ names) :
    names.idxOf? name = some (names.idxOf name) := by
  rcases Option.isSome_iff_exists.mp (List.isSome_idxOf?.mpr h) with ⟨k, hk⟩
  rw [List.idxOf_eq_getD_idxOf?, hk]
  rfl

/-- The first declaration of a label splits the instructions. -/
theorem split_at_label {code : List Instruction} {name : String}
    (h : Instruction.label name ∈ code) :
    ∃ after, code =
        code.takeWhile (· != Instruction.label name) ++ Instruction.label name :: after ∧
      name ∉ declaredLabels (code.takeWhile (· != Instruction.label name)) := by
  have hnot : name ∉ declaredLabels (code.takeWhile (· != Instruction.label name)) := by
    intro hmem
    have hne := List.mem_takeWhile_imp (mem_declaredLabels_iff.mp hmem)
    rw [bne_self_eq_false] at hne
    cases hne
  have hdrop : code.dropWhile (· != Instruction.label name) ≠ [] := by
    intro hnil
    have hne := List.dropWhile_eq_nil_iff.mp hnil _ h
    rw [bne_self_eq_false] at hne
    cases hne
  -- What is left over starts with the label.
  have hhead := bne_eq_false_iff_eq.mp (List.head_dropWhile_not _ hdrop)
  have hcons : Instruction.label name :: (code.dropWhile (· != Instruction.label name)).tail =
      code.dropWhile (· != Instruction.label name) :=
    (congrArg (· :: _) hhead.symm).trans (List.cons_head_tail hdrop)
  refine ⟨(code.dropWhile (· != Instruction.label name)).tail, ?_, hnot⟩
  rw [hcons, List.takeWhile_append_dropWhile]

/-- The assembler's table gives every symbol of the instructions its meaning. -/
theorem symbolAddress?_statements {code : List Instruction} (hlegible : ∀ i ∈ code, i.Legible)
    {name : String} (hname : Instruction.load (.symbol name) ∈ code) :
    symbolAddress? (code.filterMap Instruction.statement?) name =
      some (symbolMeaning code name) := by
  unfold symbolAddress? symbolMeaning
  cases hlookup : predefinedSymbols.lookup name with
  | some address => rfl
  | none =>
      by_cases hlabel : Instruction.label name ∈ code
      · rcases split_at_label hlabel with ⟨after, hsplit, hnot⟩
        have hposition : labelPosition? name ((code.takeWhile (· != Instruction.label name) ++
            Instruction.label name :: after).filterMap Instruction.statement?) = some _ :=
          labelPosition?_statements hnot
        rw [← hsplit] at hposition
        simp only [hposition, if_pos hlabel]
        rfl
      · have hnone : labelPosition? name (code.filterMap Instruction.statement?) = none := by
          rw [← Option.not_isSome_iff_eq_none, isSome_labelPosition?, labelNames_statements,
            mem_declaredLabels_iff]
          exact hlabel
        have hmem : name ∈ undeclaredSymbols code := by
          rw [undeclaredSymbols, List.mem_eraseDups, List.mem_filter]
          refine ⟨List.mem_filterMap.mpr ⟨_, hname, rfl⟩, ?_⟩
          rw [isPredefined_eq_isSome_lookup, hlookup]
          simpa using fun hmem => hlabel (mem_declaredLabels_iff.mp hmem)
        simp only [hnone, if_neg hlabel, variableNames_statements hlegible,
          idxOf?_eq_some_idxOf hmem]
        rfl

/-- An instruction whose number can be loaded makes a statement that can be
    read. -/
theorem readable_statement? {i : Instruction} {st : Statement} (hlegible : i.Legible)
    (hload : ∀ value, i = .load (.constant value) → value.toNat ≤ 32767)
    (h : i.statement? = some st) : st.Readable := by
  cases i with
  | load address =>
      cases h
      cases address with
      | constant value =>
          refine ⟨Text.repr_ne_nil value.toNat, fun _ => ?_⟩
          show Text.numeralValue value.toNat.repr.toList ≤ 32767
          rw [Text.numeralValue_repr]
          exact hload value rfl
      | symbol name =>
          refine ⟨ne_nil_of_isName hlegible, fun hnumeral => ?_⟩
          exact absurd hnumeral (by rw [Address.render, not_isNumeral_of_isName hlegible]; simp)
  | compute c =>
      cases h
      rw [Statement.Readable, Computation.parse?_render]
      rfl
  | label name =>
      cases h
      trivial
  | comment text => cases h

theorem legible_blockCode {blocks : List Block}
    (hprintable : ∀ block ∈ blocks, block.Printable) : ∀ i ∈ blockCode blocks, i.Legible := by
  intro i hi
  rcases List.mem_flatMap.mp hi with ⟨block, hblock, hi⟩
  exact (hprintable block hblock).code i hi

/-- A listing can be assembled: the conditions of the assembler are those of the
    listing. -/
theorem exists_assemble_renderText (echo : Bool) {blocks : List Block}
    (hprintable : ∀ block ∈ blocks, block.Printable)
    (hload : ∀ value, Instruction.load (.constant value) ∈ blockCode blocks →
      value.toNat ≤ 32767)
    (hnodup : (declaredLabels (blockCode blocks)).Nodup)
    (hnew : ∀ name ∈ declaredLabels (blockCode blocks), isPredefined name = false)
    (hsize : codeSize (blockCode blocks) ≤ 65535)
    (hcells : (undeclaredSymbols (blockCode blocks)).length < 65520) :
    ∃ image, assemble (renderText echo blocks) = .ok image := by
  have hlegible := legible_blockCode hprintable
  refine assemble_succeeds (statements_renderText echo hprintable) ?_ ?_ ?_ ?_ ?_
  · rw [labelNames_statements]
    exact hnodup
  · intro name hname
    rw [labelNames_statements] at hname
    have hfalse := hnew name hname
    rw [isPredefined_eq_isSome_lookup] at hfalse
    exact Option.not_isSome_iff_eq_none.mp (by rw [hfalse]; simp)
  · rw [codeCount_statements]
    exact hsize
  · intro st hst
    rcases List.mem_filterMap.mp hst with ⟨i, hi, hst⟩
    exact readable_statement? (hlegible i hi) (fun value hvalue => hload value (hvalue ▸ hi)) hst
  · rw [← blockCode, variableNames_statements hlegible]
    exact hcells

/-- The number that an instruction loads, if it does, can be loaded. -/
def isLoadable : Instruction → Bool
  | .load (.constant value) => value.toNat ≤ 32767
  | _ => true

/-- Nothing in the code stands in the way of the assembler. -/
def canAssemble (code : List Instruction) : Bool :=
  code.all isLoadable && decide (declaredLabels code).Nodup &&
    (declaredLabels code).all (fun name => !isPredefined name) &&
    decide (codeSize code ≤ 65535) && decide ((undeclaredSymbols code).length < 65520)

theorem exists_assemble_of_canAssemble (echo : Bool) {blocks : List Block}
    (hprintable : ∀ block ∈ blocks, block.Printable) (h : canAssemble (blockCode blocks) = true) :
    ∃ image, assemble (renderText echo blocks) = .ok image := by
  simp only [canAssemble, Bool.and_eq_true, decide_eq_true_eq, List.all_eq_true,
    Bool.not_eq_true'] at h
  rcases h with ⟨⟨⟨⟨hload, hnodup⟩, hnew⟩, hsize⟩, hcells⟩
  exact exists_assemble_renderText echo hprintable
    (fun value hvalue => of_decide_eq_true (hload _ hvalue)) hnodup hnew hsize hcells

/-- The assembler undoes the listing. Any blocks whose lines are lines, whose
    names are names and whose labels are new can be written down and assembled,
    if their numbers can be loaded and neither addresses nor cells run out. The
    image has one word for each executable instruction, in order: numbers and
    computations as they were, and for every symbol what it stands for. -/
theorem assemble_renderText (echo : Bool) (blocks : List Block)
    (hprintable : ∀ block ∈ blocks, block.Printable)
    (hload : ∀ value, Instruction.load (.constant value) ∈ blockCode blocks →
      value.toNat ≤ 32767)
    (hnodup : (declaredLabels (blockCode blocks)).Nodup)
    (hnew : ∀ name ∈ declaredLabels (blockCode blocks), isPredefined name = false)
    (hsize : codeSize (blockCode blocks) ≤ 65535)
    (hcells : (undeclaredSymbols (blockCode blocks)).length < 65520) :
    ∃ image, assemble (renderText echo blocks) = .ok image ∧
      image.code.size = codeSize (blockCode blocks) ∧
      image.code.toList = (blockCode blocks).filterMap
        (Instruction.word? fun name => some (symbolMeaning (blockCode blocks) name)) := by
  have hlegible := legible_blockCode hprintable
  rcases exists_assemble_renderText echo hprintable hload hnodup hnew hsize hcells with
    ⟨image, himage⟩
  have hrealizes := realizes_of_assemble himage
  rw [statements_renderText echo hprintable] at hrealizes
  rcases Image.code_of_realizes hrealizes hlegible with ⟨hcode, hsome⟩
  refine ⟨image, himage, ?_, ?_⟩
  · rw [← Array.length_toList, hcode]
    exact length_filterMap_word? hsome
  · rw [hcode]
    refine List.filterMap_congr fun i hi => ?_
    cases i with
    | load address =>
        cases address with
        | constant value => rfl
        | symbol name =>
            show (image.symbols.find? name).map CodeWord.load = _
            rw [hrealizes.find?, ← blockCode, symbolAddress?_statements hlegible hi]
            rfl
    | compute c => rfl
    | label name => rfl
    | comment text => rfl

/-- A jump over a refused line to a label that is declared later, where two
    variables, a name of the machine and the greatest number are loaded. -/
def forwardBlocks : List Block :=
  [{ location := { unit := "Main", line := 1 }
     source := "goto END\r"
     body := .ok [.atSymbol "END", .jumpAlways] },
   { location := { unit := "Main", line := 2 }
     source := "foo // bar"
     body := .error (.unknownCommand "foo") },
   { location := { unit := "Main", line := 3 }
     source := "label END"
     body := .ok [.label "END", .comment "@END", .atSymbol "Main.1", .assign .d (.only .m),
       .atSymbol "SP", .atSymbol "Main.0", .atSymbol "Main.1", .atConstant 32767] }]

theorem assemble_renderText_forwardBlocks :
    (∀ block ∈ forwardBlocks, block.Printable) ∧
    ∃ image, assemble (renderText true forwardBlocks) = .ok image ∧ image.code.size = 8 ∧
      image.code.toList = [.load 2, .compute { dest := none, comp := .zero, jump := some .jmp },
        .load 16, .compute { dest := some .d, comp := .only .m, jump := none }, .load 0, .load 17,
        .load 16, .load 32767] := by
  have hprintable : ∀ block ∈ forwardBlocks, block.Printable := by decide
  refine ⟨hprintable, ?_⟩
  refine assemble_renderText true forwardBlocks hprintable ?_ (by decide) (by decide) (by decide)
    (by decide)
  intro value hvalue
  have hlast : value = 32767 := by
    simpa [blockCode, forwardBlocks, Block.instructions, Instruction.atSymbol,
      Instruction.atConstant, Instruction.assign, Instruction.jumpAlways,
      Instruction.branch] using hvalue
  rw [hlast]
  decide

end HackVM
