import HackVM.Proofs.Agreement

/-!
# Loads beyond 15 Bits

Which texts load a word that no load can hold.

A load holds 15 bits. The assembler refuses a greater number, but a number is only
one of the things that a load can stand for. The address of a label grows with the
code in front of it, and the cell of a variable with the variables before it, and
neither is looked at. Both are counted in 16 bits, and assembling fails only when
these do not suffice, so there is as much room again beyond the limit.

Nothing else is loaded. The names of the machine lie far below the limit, and what
is left are labels with too much code in front of them and variables that come too
late.

## Main definitions

* `StandsBehind`: The symbol is declared behind so many instruction lines.
* `longText`: A text with a label at its end that is used at its start.

## Theorems

* `find?_cases`: What a symbol stands for.
* `assemble_longText`: A long text is assembled, and loads its own size.
* `wide_load_iff`, `wide_loads_escape`: Which loads are beyond the limit.
* `wide_load_accepted`: There are such loads.
-/

namespace HackVM

/-- The symbol is declared behind so many instruction lines. -/
def StandsBehind (lines : List (List Char)) (name : String) (count : Nat) : Prop :=
  ∃ before line after, lines = before ++ line :: after ∧ declaresLabel line name = true ∧
    before.countP isInstructionLine = count

theorem StandsBehind.le_countP {lines : List (List Char)} {name : String} {count : Nat}
    (h : StandsBehind lines name count) : count ≤ lines.countP isInstructionLine := by
  rcases h with ⟨before, line, after, rfl, -, rfl⟩
  rw [List.countP_append]
  exact Nat.le_add_right _ _

section Symbols

variable {text : String} {image : Image} {name : String} {value : Word}

/-- A label stands for the number of instruction lines before it. -/
theorem toNat_of_standsBehind (h : assemble text = .ok image)
    (hfind : image.symbols.find? name = some value) {count : Nat}
    (hbehind : StandsBehind (Text.lines text) name count) : value.toNat = count := by
  have hrealizes := realizes_of_assemble h
  rcases hbehind with ⟨before, line, after, hlines, hline, rfl⟩
  rw [statements_eq_lines, hlines] at hrealizes
  rcases (hrealizes.label_line hline).1 with ⟨address, haddress, hcount⟩
  cases haddress.symm.trans hfind
  exact hcount

/-- A symbol stands for a low address, for the instruction lines before its
    declaration, or for a cell among the variables. -/
theorem find?_cases (h : assemble text = .ok image)
    (hfind : image.symbols.find? name = some value) :
    value.toNat ≤ 24576 ∨ StandsBehind (Text.lines text) name value.toNat ∨
      ∃ rank, (variableNames ((Text.lines text).filterMap Statement.ofLine?))[rank]? = some name ∧
        value.toNat = 16 + rank := by
  have hrealizes := realizes_of_assemble h
  rw [statements_eq_lines] at hrealizes
  have hsome : (image.symbols.find? name).isSome = true := by rw [hfind]; rfl
  rcases (hrealizes.isSome_find?_iff name).mp hsome with hmachine | ⟨line, hline, hlabel⟩ | hvariable
  · -- The keyboard is the last of the machine's addresses.
    have hlow : ∀ entry ∈ machineCells, entry.2.toNat ≤ 24576 := by decide
    rcases List.mem_map.mp hmachine with ⟨entry, hentry, rfl⟩
    cases hfind.symm.trans (Image.knowsMachine_of_realizes hrealizes entry hentry)
    exact Or.inl (hlow entry hentry)
  · rcases List.append_of_mem hline with ⟨before, after, hlines⟩
    have hbehind : StandsBehind (Text.lines text) name (before.countP isInstructionLine) :=
      ⟨before, line, after, hlines, hlabel, rfl⟩
    rw [← toNat_of_standsBehind h hfind hbehind] at hbehind
    exact Or.inr (Or.inl hbehind)
  · rcases List.mem_iff_getElem?.mp hvariable with ⟨rank, hrank⟩
    rcases variable_cells h hrank with ⟨cell, hcell, hvalue⟩
    cases hcell.symm.trans hfind
    exact Or.inr (Or.inr ⟨rank, hrank, hvalue⟩)

end Symbols

section LongText

/-- A text that loads a label, goes on for a while, and then declares it. -/
def longText (count : Nat) : String :=
  Text.unlines ("@END" :: (List.replicate count "0" ++ ["(END)"]))

theorem lines_longText (count : Nat) :
    Text.lines (longText count) =
      "@END".toList :: (List.replicate count "0".toList ++ ["(END)".toList]) := by
  rw [longText, Text.lines_unlines, List.map_cons, List.map_append, List.map_replicate]
  · rfl
  · intro line hline
    rw [List.mem_cons, List.mem_append, List.mem_singleton] at hline
    rcases hline with rfl | hline | rfl
    · decide
    · rw [List.eq_of_mem_replicate hline]
      decide
    · decide

theorem statements_longText (count : Nat) :
    (statements (longText count)).map (·.statement) =
      .load "END".toList :: (List.replicate count (.compute "0".toList) ++ [.label "END"]) := by
  have hload : Statement.ofLine? "@END".toList = some (.load "END".toList) := by decide
  have hzero : Statement.ofLine? "0".toList = some (.compute "0".toList) := by decide
  have hlabel : Statement.ofLine? "(END)".toList = some (.label "END") := by decide
  rw [statements_eq_lines, lines_longText, List.filterMap_cons_some hload, List.filterMap_append,
    List.filterMap_replicate_of_some hzero, List.filterMap_cons_some hlabel]
  rfl

theorem first_longText (count : Nat) :
    ((Text.lines (longText count)).filter isInstructionLine)[0]? = some "@END".toList := by
  have hfirst : isInstructionLine "@END".toList = true := by decide
  rw [lines_longText, List.filter_cons, if_pos hfirst]
  rfl

theorem exists_assemble_longText {count : Nat} (h : count ≤ 65534) :
    ∃ image, assemble (longText count) = .ok image := by
  have hnames : labelNames (.load "END".toList ::
      (List.replicate count (.compute "0".toList) ++ [.label "END"])) = ["END"] := by
    rw [labelNames, List.filterMap_cons_none rfl, List.filterMap_append,
      List.filterMap_replicate_of_none rfl]
    rfl
  refine assemble_succeeds (statements_longText count) ?_ ?_ ?_ ?_ ?_
  · rw [hnames]
    exact List.nodup_singleton "END"
  · rw [hnames]
    decide
  · rw [codeCount_cons, codeCount, List.countP_append, List.countP_replicate]
    show (if true = true then count else 0) + 0 + (if true = true then 1 else 0) ≤ 65535
    rw [if_pos rfl, if_pos rfl]
    omega
  · intro st hst
    rw [List.mem_cons, List.mem_append, List.mem_singleton] at hst
    rcases hst with rfl | hst | rfl
    · decide
    · rw [List.eq_of_mem_replicate hst]
      decide
    · decide
  · -- The one symbol that is used is a label.
    rw [variableNames, hnames, List.filterMap_cons_some (b := "END") (by decide),
      List.filterMap_append, List.filterMap_replicate_of_none rfl]
    decide

/-- A long text is assembled as long as its addresses suffice, and its first word
    is the load of its own size. -/
theorem assemble_longText {count : Nat} (h : count ≤ 65534) :
    ∃ image value, assemble (longText count) = .ok image ∧
      image.code[0]? = some (.load value) ∧ value.toNat = count + 1 := by
  rcases exists_assemble_longText h with ⟨image, himage⟩
  have hrealizes := realizes_of_assemble himage
  rw [statements_eq_lines] at hrealizes
  have hfirst : isInstructionLine "@END".toList = true := by decide
  have hzero : isInstructionLine "0".toList = true := by decide
  have huses : usesSymbol "@END".toList "END" = true := by decide
  rcases hrealizes.code_of_usesSymbol (first_longText count) huses with ⟨value, hfind, hvalue⟩
  have hbehind : StandsBehind (Text.lines (longText count)) "END" (count + 1) := by
    refine ⟨"@END".toList :: List.replicate count "0".toList, "(END)".toList, [], ?_, ?_, ?_⟩
    · exact lines_longText count
    · decide
    · rw [List.countP_cons, List.countP_replicate, if_pos hzero, if_pos hfirst]
  exact ⟨image, value, himage, hvalue, toNat_of_standsBehind himage hfind hbehind⟩

end LongText

/-- A word that is loaded is beyond the limit if it stands for a label or a variable
    that is beyond it. -/
theorem wide_load_iff {text : String} {image : Image} (h : assemble text = .ok image) {place : Nat}
    {line : List Char} {value : Word}
    (hline : ((Text.lines text).filter isInstructionLine)[place]? = some line)
    (hvalue : image.code[place]? = some (.load value)) :
    32767 < value.toNat ↔ ∃ name, usesSymbol line name = true ∧
      ((∃ count, StandsBehind (Text.lines text) name count ∧ 32767 < count) ∨
        ∃ rank, (variableNames ((Text.lines text).filterMap Statement.ofLine?))[rank]? =
          some name ∧ 32752 ≤ rank) := by
  have hrealizes := realizes_of_assemble h
  rw [statements_eq_lines] at hrealizes
  have hword := hrealizes.lineWord hline hvalue
  constructor
  · intro hlarge
    cases hword with
    | number _ _ hle => omega
    | symbol huses hfind =>
        refine ⟨_, huses, ?_⟩
        rcases find?_cases h hfind with hlow | hbehind | ⟨rank, hrank, hcell⟩
        · omega
        · exact Or.inl ⟨_, hbehind, hlarge⟩
        · exact Or.inr ⟨rank, hrank, by omega⟩
  · rintro ⟨name, huses, hfar⟩
    -- The table gives one value for the name, so the line loads that one.
    rcases hword.eq_load huses with ⟨_, hfind, ⟨⟩⟩
    rcases hfar with ⟨count, hbehind, hlarge⟩ | ⟨rank, hrank, hlarge⟩
    · rw [toNat_of_standsBehind h hfind hbehind]
      exact hlarge
    · rcases variable_cells h hrank with ⟨cell, hcell, hplace⟩
      cases hcell.symm.trans hfind
      omega

/-- A load holds 15 bits, and the assembler sees to that only for numbers. A word
    that is loaded is beyond the limit exactly if it stands for a label behind more
    than 32767 instruction lines, or for a variable after 32752 others. So all is
    well if there are no more instruction lines and no more variables than that. -/
theorem wide_loads_escape {text : String} {image : Image} (h : assemble text = .ok image) :
    ∃ names, FirstUses (Text.lines text) names ∧
      (∀ (place : Nat) line value,
        ((Text.lines text).filter isInstructionLine)[place]? = some line →
        image.code[place]? = some (.load value) →
        (32767 < value.toNat ↔ ∃ name, usesSymbol line name = true ∧
          ((∃ count, StandsBehind (Text.lines text) name count ∧ 32767 < count) ∨
            ∃ rank, names[rank]? = some name ∧ 32752 ≤ rank))) ∧
      ((Text.lines text).countP isInstructionLine ≤ 32767 → names.length ≤ 32752 →
        ∀ value, CodeWord.load value ∈ image.code.toList → value.toNat ≤ 32767) := by
  refine ⟨_, firstUses_variableNames _,
    fun _ _ _ hline hvalue => wide_load_iff h hline hvalue, ?_⟩
  intro hcode hvariables value hmem
  have hrealizes := realizes_of_assemble h
  rw [statements_eq_lines] at hrealizes
  rcases List.mem_iff_getElem?.mp hmem with ⟨place, hplace⟩
  have hlt := (List.getElem?_eq_some_iff.mp hplace).1
  rw [← hrealizes.lineWords.length_eq] at hlt
  rw [Array.getElem?_toList] at hplace
  by_contra hlarge
  rcases (wide_load_iff h (List.getElem?_eq_getElem hlt) hplace).mp (by omega) with
    ⟨name, -, ⟨count, hbehind, hfar⟩ | ⟨rank, hrank, hfar⟩⟩
  · have hle := hbehind.le_countP
    omega
  · have hrank' := (List.getElem?_eq_some_iff.mp hrank).1
    omega

theorem wide_loads_escape_longText :
    ∃ image value, assemble (longText 40000) = .ok image ∧
      image.code[0]? = some (.load value) ∧ 32767 < value.toNat ∧
      ∃ names, FirstUses (Text.lines (longText 40000)) names ∧
        ∃ name, usesSymbol "@END".toList name = true ∧
          ((∃ count, StandsBehind (Text.lines (longText 40000)) name count ∧ 32767 < count) ∨
            ∃ rank, names[rank]? = some name ∧ 32752 ≤ rank) := by
  have hsmall : 40000 ≤ 65534 := by decide
  rcases assemble_longText hsmall with ⟨image, value, himage, hvalue, hsize⟩
  have hlarge : 32767 < value.toNat := by omega
  rcases wide_loads_escape himage with ⟨names, hnames, hbeyond, -⟩
  refine ⟨image, value, himage, hvalue, hlarge, names, hnames, ?_⟩
  exact (hbeyond 0 _ value (first_longText 40000) hvalue).mp hlarge

/-- A text is assembled that loads a word beyond the limit. -/
theorem wide_load_accepted :
    ∃ image value, assemble (longText 32767) = .ok image ∧
      CodeWord.load value ∈ image.code.toList ∧ 32767 < value.toNat := by
  have hsmall : 32767 ≤ 65534 := by decide
  rcases assemble_longText hsmall with ⟨image, value, himage, hvalue, hsize⟩
  refine ⟨image, value, himage, ?_, by omega⟩
  rw [← Array.getElem?_toList] at hvalue
  exact List.mem_of_getElem? hvalue

end HackVM
