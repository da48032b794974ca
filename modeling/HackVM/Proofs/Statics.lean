import HackVM.Proofs.Alignment

/-!
# Cells of Static Variables

Every static variable of a program has a cell to itself.

A static variable is written as a number in its unit, and in the code as the name
of the unit, a point and the number. The name of a unit may have points, digits
and numbers behind points, but the last point is always the one that was put
there, because a number has none: so the symbol tells the unit and the number.
The point also keeps the symbol apart from the names of the machine. If no label
takes it either, the symbol is a variable to the assembler, which gives variables
one cell after the other from the first free one on. It fails rather than start
again from the beginning.

## Main definitions

* `Line.staticIndex?`: The number of the static variable that a line uses.

## Theorems

* `Line.staticSymbol_inj`: The symbol of a static variable tells its unit and its
  number.
* `Image.Realizes.find?_variable`: The cells of variables.
* `Produces.loads_static`: A line that uses a static variable loads its symbol.
* `Trace.staticSymbol_mem_undeclaredSymbols`: So the symbol is a variable.
* `static_cells_separate`: Static variables do not share cells.
-/

namespace HackVM

open Instruction

/-- The number of the static variable that a line uses. -/
def Line.staticIndex? (l : Line) : Option Word :=
  match l.parsed.result with
  | .ok (.push .static index) | .ok (.pop .static index) => some index
  | _ => none

namespace Line

variable {l l' : Line} {index index' : Word}

/-- The symbol of a static variable goes by its number. -/
theorem static?_eq (l : Line) : l.static? = l.staticIndex?.map l.staticSymbol := by
  unfold static? staticIndex?
  cases l.parsed.result with
  | error cause => rfl
  | ok command =>
      cases command with
      | push segment index => cases segment <;> rfl
      | pop segment index => cases segment <;> rfl
      | _ => rfl

theorem toList_staticSymbol (l : Line) (index : Word) :
    (l.staticSymbol index).toList = (l.unit ++ ".").toList ++ index.toNat.repr.toList := by
  rw [staticSymbol, String.toList_append]
  rfl

/-- The symbol of a static variable tells its unit and its number. -/
theorem staticSymbol_inj :
    l.staticSymbol index = l'.staticSymbol index' ↔ l.unit = l'.unit ∧ index = index' := by
  constructor
  · intro heq
    have hlast : ∀ unit : String, (unit ++ ".").toList.getLast? = some '.' := by
      intro unit
      rw [String.toList_append, List.getLast?_append_of_ne_nil _ (by decide)]
      rfl
    -- Read from the end, digits come first, and what is left is the unit and the point.
    have hsplit := split_append_repr (hlast l.unit) (by decide) index.toNat
    have hsplit' := split_append_repr (hlast l'.unit) (by decide) index'.toNat
    rw [← toList_staticSymbol, heq, toList_staticSymbol, hsplit'.1, hsplit'.2] at hsplit
    have hstem := String.toList_inj.mp (Option.some.inj hsplit.1)
    exact ⟨((String.append_left_inj ".").mp hstem).symm,
      BitVec.eq_of_toNat_eq hsplit.2.symm⟩
  · rintro ⟨hunit, rfl⟩
    rw [staticSymbol, staticSymbol, hunit]

/-- No name of the machine has a point. -/
theorem isPredefined_staticSymbol (l : Line) (index : Word) :
    isPredefined (l.staticSymbol index) = false := by
  have hpoint : ∀ entry ∈ predefinedSymbols, '.' ∉ entry.1.toList := by decide
  by_contra hmachine
  rcases List.any_eq_true.mp (Bool.of_not_eq_false hmachine) with ⟨entry, hentry, heq⟩
  refine hpoint entry hentry ?_
  rw [beq_iff_eq.mp heq, toList_staticSymbol, String.toList_append]
  simp

end Line

/-- A variable has the cell of its place among the variables, as long as there are
    cells for all of them. -/
theorem Image.Realizes.find?_variable {image : Image} {ss : List Statement} {name : String}
    (h : image.Realizes ss) (hcells : (variableNames ss).length < 65520)
    (hname : name ∈ variableNames ss) :
    ∃ cell, image.symbols.find? name = some cell ∧
      cell.toNat = 16 + (variableNames ss).idxOf name := by
  have hplace := idxOf?_eq_some_idxOf hname
  have hlt := List.idxOf_lt_length_of_mem hname
  rw [variableNames, List.mem_eraseDups, List.mem_filter, Bool.and_eq_true] at hname
  rcases hname with ⟨-, hmachine, hlabel⟩
  have hposition : labelPosition? name ss = none := by
    rw [← Option.not_isSome_iff_eq_none, isSome_labelPosition?]
    simpa using hlabel
  -- With so few variables the last cell is still an address.
  refine ⟨BitVec.ofNat 16 (16 + (variableNames ss).idxOf name), ?_, ?_⟩
  · rw [h.find?, symbolAddress?, Option.isNone_iff_eq_none.mp hmachine, hposition, hplace]
    rfl
  · rw [BitVec.toNat_ofNat]
    omega

/-- A line that uses a static variable loads its symbol. -/
theorem Produces.loads_static {options : Options} {l : Line} {block : Block} {index : Word}
    (h : Produces options (.line l) block) (hindex : l.staticIndex? = some index) :
    .load (.symbol (l.staticSymbol index)) ∈ block.instructions := by
  unfold Line.staticIndex? at hindex
  rcases h.line_cases with ⟨cause, hresult, -⟩ | ⟨command, code, ctx, ctx', hresult, hcode, hunit, -,
    hlowers⟩
  · rw [hresult] at hindex
    cases hindex
  · rw [hcode, ← Line.staticSymbol_eq hunit]
    rw [hresult] at hindex
    cases hlowers with
    | push hbounds haccess =>
        rename_i segment number access
        cases segment with
        | static =>
            cases hindex
            cases haccess
            simp [Access.push, atSymbol]
        | _ => cases hindex
    | pop hbounds haccess hpop =>
        rename_i segment number access
        cases segment with
        | static =>
            cases hindex
            cases haccess
            cases hpop
            simp [atSymbol]
        | _ => cases hindex
    | _ => cases hindex

/-- The symbol of a static variable that a line uses belongs to nothing else, if no
    label has it. -/
theorem Trace.staticSymbol_mem_undeclaredSymbols {options : Options} {names names' : Names}
    {entries : List Entry} {blocks : List Block} {messages : List Diagnostic} {l : Line}
    {index : Word} (h : Trace options names entries blocks messages names')
    (hl : .line l ∈ entries) (hindex : l.staticIndex? = some index)
    (hlabel : l.staticSymbol index ∉ declaredLabels (blockCode blocks)) :
    l.staticSymbol index ∈ undeclaredSymbols (blockCode blocks) := by
  rcases exists_mem_of_forall₂ (List.Forall₂.flip h.produces) hl with ⟨block, hblock, hproduces⟩
  have hload : .load (.symbol (l.staticSymbol index)) ∈ blockCode blocks :=
    List.mem_flatMap.mpr ⟨block, hblock, Produces.loads_static hproduces hindex⟩
  rw [undeclaredSymbols, List.mem_eraseDups, List.mem_filter]
  refine ⟨List.mem_filterMap.mpr ⟨_, hload, rfl⟩, ?_⟩
  rw [Line.isPredefined_staticSymbol]
  simpa using hlabel

/-- Static variables of a program have cells from sixteen on, which they share only
    with themselves, if no label has the symbol of one. -/
theorem static_cells_separate {options : Options} {units : List (String × String)}
    {compilation : Compilation} {image : Image} (hunits : ∀ unit ∈ units, isName unit.1 = true)
    (hcompile : compileProgram options units = .ok compilation)
    (himage : assemble compilation.text = .ok image)
    (hstatic : ∀ l ∈ programLines units, ∀ name ∈ l.static?,
      name ∉ declaredLabels compilation.instructions) :
    ∀ l ∈ programLines units, ∀ index ∈ l.staticIndex?,
      ∀ l' ∈ programLines units, ∀ index' ∈ l'.staticIndex?, ∃ cell cell',
        image.symbols.find? (l.staticSymbol index) = some cell ∧
        image.symbols.find? (l'.staticSymbol index') = some cell' ∧
        16 ≤ cell.toNat ∧ 16 ≤ cell'.toNat ∧
        (cell = cell' ↔ l.unit = l'.unit ∧ index = index') := by
  rcases (trace_of_compileProgram hcompile).1 with ⟨names, htrace⟩
  have hrealizes := realizes_of_assemble himage
  have hcells := length_variableNames_of_assemble himage
  rw [statements_text hunits hcompile] at hrealizes hcells
  have hlegible := legible_blockCode (printable_of_compileProgram hunits hcompile)
  have hvariable : ∀ l ∈ programLines units, ∀ index ∈ l.staticIndex?,
      l.staticSymbol index ∈
        variableNames (compilation.instructions.filterMap Instruction.statement?) := by
    intro l hl index hindex
    have hsymbol : l.static? = some (l.staticSymbol index) := by
      rw [Line.static?_eq, hindex]
      rfl
    have hmem := htrace.staticSymbol_mem_undeclaredSymbols (mem_programEntries_of_line hl) hindex
      (hstatic l hl _ hsymbol)
    rwa [← variableNames_statements hlegible] at hmem
  intro l hl index hindex l' hl' index' hindex'
  have hname := hvariable l hl index hindex
  rcases hrealizes.find?_variable hcells hname with ⟨cell, hfind, hcell⟩
  rcases hrealizes.find?_variable hcells (hvariable l' hl' index' hindex') with
    ⟨cell', hfind', hcell'⟩
  refine ⟨cell, cell', hfind, hfind', by omega, by omega, ?_⟩
  -- Cells, places and symbols tell each other.
  rw [← BitVec.toNat_inj, hcell, hcell', Nat.add_left_cancel_iff, List.idxOf_inj hname,
    Line.staticSymbol_inj]

/-- Units whose names end in points and numbers, one of them in two parts, with
    labels that look like static variables. -/
def pointedUnits : List (String × String) :=
  [("A", "push static 1\nlabel A.2\npop static 12"), ("A.1", "push static 2\npop static 0002"),
   ("A.1.2", "pop static 0\ngoto A.2"), ("A", "push static 1\ncall A.1.2. 0\nlabel A.01"),
   ("A.", "pop static 65535\nfunction A.1.2. 0")]

theorem static_cells_separate_pointedUnits :
    (∀ unit ∈ pointedUnits, isName unit.1 = true) ∧
    (programLines pointedUnits).filterMap Line.static? =
      ["A.1", "A.12", "A.1.2", "A.1.2", "A.1.2.0", "A.1", "A..65535"] ∧
    ∃ compilation image, compileProgram .default pointedUnits = .ok compilation ∧
      assemble compilation.text = .ok image ∧
      (∀ l ∈ programLines pointedUnits, ∀ name ∈ l.static?,
        name ∉ declaredLabels compilation.instructions) ∧
      ∀ l ∈ programLines pointedUnits, ∀ index ∈ l.staticIndex?,
        ∀ l' ∈ programLines pointedUnits, ∀ index' ∈ l'.staticIndex?, ∃ cell cell',
          image.symbols.find? (l.staticSymbol index) = some cell ∧
          image.symbols.find? (l'.staticSymbol index') = some cell' ∧
          16 ≤ cell.toNat ∧ 16 ≤ cell'.toNat ∧
          (cell = cell' ↔ l.unit = l'.unit ∧ index = index') := by
  have hunits : ∀ unit ∈ pointedUnits, isName unit.1 = true := by decide
  have hfacts : (compileProgram .default pointedUnits).toOption.any (fun compilation =>
      (∀ l ∈ programLines pointedUnits, ∀ name ∈ l.static?,
        name ∉ declaredLabels compilation.instructions) ∧
      canAssemble compilation.instructions = true) = true := by
    decide +kernel
  refine ⟨hunits, by decide +kernel, ?_⟩
  rcases exists_ok_of_any hfacts with ⟨compilation, hcompile, hpassed⟩
  rcases of_decide_eq_true hpassed with ⟨hstatic, hcan⟩
  rcases exists_assemble_of_canAssemble compilation.echoSource
    (printable_of_compileProgram hunits hcompile) hcan with ⟨image, himage⟩
  exact ⟨compilation, image, hcompile, himage, hstatic,
    static_cells_separate hunits hcompile himage hstatic⟩

end HackVM
