import HackVM.Proofs.Clash
import HackVM.Proofs.Scoping
import Mathlib.Data.List.Pairwise

/-!
# Labels of Other Functions

Which labels a jump can reach if labels are kept per function.

A label inside a function is written as the function, a `$` and the label. Both
names may hold a `$` themselves, so that the symbol does not say where one ends
and the other begins: label `B$C` of function `A` and label `C` of function `A$B`
are one symbol, and so is a label `A$B$C` outside of any function. Keeping labels
per function therefore does not keep a jump inside of its function. It strays to
another place if the symbol is cut there at another `$`, and for no other reason.

Without a warning no symbol is declared twice. A function is then known by its
name, and a jump to a label that its own function declares does not stray.

## Main definitions

* `Strays`: The labels elsewhere that a jump inside a function runs into.

## Theorems

* `qualified_eq_iff`: In how many ways a qualified label can be cut.
* `Line.symbol_eq_symbol_iff`: What a jump inside a function reaches.
* `Strays.dollar_mem`: A jump strays only if a `$` is written in a label.
* `nodup_declares?`: Without warnings no two lines declare the same symbol.
* `scoped_labels_private`: A jump reaches its own function or strays.
* `quiet_jump_strays`: It does stray.
-/

namespace HackVM

/-- If the second of two equal qualified labels has the longer function, the
    functions are equal or the second one ends at a later `$`. -/
theorem cut_of_qualified_eq {f n g m : String} {rest : List Char}
    (hfunction : g.toList = f.toList ++ rest)
    (hlabel : '$' :: n.toList = rest ++ '$' :: m.toList) :
    f = g ∧ n = m ∨ ∃ r, g = f ++ "$" ++ r ∧ n = r ++ "$" ++ m := by
  cases rest with
  | nil =>
      left
      rw [List.append_nil] at hfunction
      exact ⟨(String.toList_inj.mp hfunction).symm, String.toList_inj.mp (List.cons.inj hlabel).2⟩
  | cons c rest =>
      -- The first character left over is the `$` behind the shorter function.
      right
      rcases List.cons.inj hlabel with ⟨rfl, hrest⟩
      refine ⟨String.ofList rest, String.toList_inj.mp ?_, String.toList_inj.mp ?_⟩
      · simp [hfunction]
      · simp [hrest]

/-- Qualified labels are equal if they are cut at the same `$`, or if one of them
    is cut at a `$` inside of the other's label. -/
theorem qualified_eq_iff {f n g m : String} :
    f ++ "$" ++ n = g ++ "$" ++ m ↔
      (f = g ∧ n = m) ∨ (∃ r, g = f ++ "$" ++ r ∧ n = r ++ "$" ++ m) ∨
        ∃ r, f = g ++ "$" ++ r ∧ m = r ++ "$" ++ n := by
  constructor
  · intro h
    have hchars : f.toList ++ '$' :: n.toList = g.toList ++ '$' :: m.toList := by
      simpa using String.toList_inj.mpr h
    -- One of the functions is the beginning of the other.
    rcases List.append_eq_append_iff.mp hchars with ⟨rest, hg, hn⟩ | ⟨rest, hf, hm⟩
    · rcases cut_of_qualified_eq hg hn with hsame | hlater
      · exact Or.inl hsame
      · exact Or.inr (Or.inl hlater)
    · rcases cut_of_qualified_eq hf hm with ⟨hfunction, hlabel⟩ | hlater
      · exact Or.inl ⟨hfunction.symm, hlabel.symm⟩
      · exact Or.inr (Or.inr hlater)
  · rintro (⟨rfl, rfl⟩ | ⟨r, rfl, rfl⟩ | ⟨r, rfl, rfl⟩)
    · rfl
    · simp only [String.append_assoc]
    · simp only [String.append_assoc]

/-- The labels elsewhere that a jump to `name` inside function `f` runs into:
    outside of any function the one that is written like the whole symbol, and in
    another function one whose symbol is cut at a later or an earlier `$`. -/
def Strays (f name : String) : Option String → String → Prop
  | none, label => label = f ++ "$" ++ name
  | some g, label =>
      (∃ r, g = f ++ "$" ++ r ∧ name = r ++ "$" ++ label) ∨
        ∃ r, f = g ++ "$" ++ r ∧ label = r ++ "$" ++ name

section Symbols

variable {options : Options} {l l' : Line} {f name label : String} {function? : Option String}

theorem Line.symbol_of_function? (hscope : options.scopeLabels = true)
    (h : l.function? = some f) (name : String) :
    l.symbol options name = f ++ "$" ++ name := by
  simp only [Line.symbol, hscope, h, if_true]

/-- A jump inside a function reaches the label of that name in its own function,
    and the labels that it strays to. -/
theorem Line.symbol_eq_symbol_iff (hscope : options.scopeLabels = true)
    (h : l.function? = some f) :
    l.symbol options name = l'.symbol options label ↔
      (l'.function? = some f ∧ label = name) ∨ Strays f name l'.function? label := by
  rw [Line.symbol_of_function? hscope h]
  cases hplace : l'.function? with
  | none =>
      simp only [Line.symbol, hscope, hplace, if_true, Strays, reduceCtorEq, false_and, false_or,
        eq_comm]
  | some g =>
      rw [Line.symbol_of_function? hscope hplace, qualified_eq_iff, Option.some_inj, Strays]
      rw [eq_comm (a := f) (b := g), eq_comm (a := name) (b := label)]

/-- A jump strays only if a `$` is written in its label or in the one that it
    reaches. -/
theorem Strays.dollar_mem (h : Strays f name function? label) :
    '$' ∈ name.toList ∨ '$' ∈ label.toList := by
  have hmem : ∀ before after : String, '$' ∈ (before ++ "$" ++ after).toList := by
    intro before after
    simp
  cases function? with
  | none =>
      cases h
      exact Or.inr (hmem f name)
  | some g =>
      rcases h with ⟨r, -, rfl⟩ | ⟨r, -, rfl⟩
      · exact Or.inl (hmem r label)
      · exact Or.inr (hmem r name)

end Symbols

section Declarations

variable {options : Options} {names names' : Names} {entries : List Entry} {blocks : List Block}
  {messages : List Diagnostic} {units : List (String × String)}

/-- What entries declare stands in the code in the same order, with generated
    labels in between. -/
theorem Trace.declares?_sublist (h : Trace options names entries blocks messages names') :
    (entries.filterMap (Entry.declares? options)).Sublist
      (declaredLabels (blocks.flatMap Block.instructions)) := by
  rw [List.filterMap_eq_flatMap_toList]
  induction h with
  | nil names => exact List.Sublist.refl _
  | cons hstep _ ih =>
      rcases hstep.declares with ⟨minted, hcode, -⟩
      rw [List.flatMap_cons, List.flatMap_cons, declaredLabels_append, hcode]
      exact (List.sublist_append_left _ minted).append ih

/-- Entries that declare something are lines. -/
theorem filterMap_declares?_programEntries :
    (programEntries options units).filterMap (Entry.declares? options) =
      (programLines units).filterMap (Line.declares? options) := by
  have hstart : (startEntries options units).filterMap (Entry.declares? options) = [] := by
    unfold startEntries
    split
    · rw [List.filterMap_map]
      exact List.filterMap_eq_nil_iff.mpr fun _ _ => rfl
    · rfl
  rw [programEntries, List.filterMap_append, hstart, List.nil_append, List.filterMap_map]
  rfl

/-- In a program that is not warned about no two lines declare the same symbol. -/
theorem nodup_declares? {compilation : Compilation}
    (hcompile : compileProgram options units = .ok compilation)
    (hquiet : ∀ d ∈ compilation.log.entries.toList, d.severity ≠ .warning) :
    ((programLines units).filterMap (Line.declares? options)).Nodup := by
  rcases (trace_of_compileProgram hcompile).1 with ⟨names, htrace⟩
  rw [← filterMap_declares?_programEntries]
  exact (htrace.nodup_declaredLabels hquiet).sublist htrace.declares?_sublist

/-- A line is known by the symbol that it declares. -/
theorem eq_of_declares? {lines : List Line}
    (hnodup : (lines.filterMap (Line.declares? options)).Nodup) {l l' : Line} (hl : l ∈ lines)
    (hl' : l' ∈ lines) {symbol : String} (h : l.declares? options = some symbol)
    (h' : l'.declares? options = some symbol) : l = l' := by
  by_contra hne
  -- Declared symbols differ from line to line, in whichever order two lines are taken.
  have hpairwise := List.pairwise_filterMap.mp hnodup
  have hsymm : Std.Symm fun a b : Line => ∀ s, a.declares? options = some s →
      ∀ s', b.declares? options = some s' → s ≠ s' :=
    ⟨fun a b hab s hs s' hs' => (hab s' hs' s hs).symm⟩
  exact hpairwise.forall hl hl' hne symbol h symbol h' rfl

end Declarations

/-- In a program that is not warned about no two functions have the same name. A
    jump inside function `f` reaches a label of that name in `f`, and otherwise only
    what it strays to. It does not stray if no `$` is written in either label, and
    neither if `f` itself declares the label. -/
theorem scoped_labels_private {options : Options} {units : List (String × String)}
    {compilation : Compilation} (hscope : options.scopeLabels = true)
    (hcompile : compileProgram options units = .ok compilation)
    (hquiet : ∀ d ∈ compilation.log.entries.toList, d.severity ≠ .warning) :
    ((programLines units).filterMap (·.parsed.begins?)).Nodup ∧
    ∀ l ∈ programLines units, ∀ f ∈ l.function?, ∀ name ∈ l.jump?,
      ∀ l' ∈ programLines units, ∀ label ∈ l'.label?,
        (l.symbol options name = l'.symbol options label ↔
          (l'.function? = some f ∧ label = name) ∨ Strays f name l'.function? label) ∧
        (l.symbol options name = l'.symbol options label →
          ('$' ∉ name.toList ∧ '$' ∉ label.toList ∨
            ∃ own ∈ programLines units, own.function? = some f ∧ own.label? = some name) →
          l'.function? = some f) := by
  have hnodup := nodup_declares? hcompile hquiet
  constructor
  · refine List.pairwise_filterMap.mpr ((List.pairwise_filterMap.mp hnodup).imp ?_)
    intro l l' hne name hname name' hname'
    exact hne name (Line.declares?_of_begins? options hname) name'
      (Line.declares?_of_begins? options hname')
  · intro l hl f hf name hname l' hl' label hlabel
    refine ⟨Line.symbol_eq_symbol_iff hscope hf, ?_⟩
    rintro hsymbol (⟨hname, hlabel⟩ | ⟨own, hown, hfunction, hdeclares⟩)
    · rcases (Line.symbol_eq_symbol_iff hscope hf).mp hsymbol with ⟨hsame, -⟩ | hstrays
      · exact hsame
      · rcases hstrays.dollar_mem with hdollar | hdollar
        · exact absurd hdollar hname
        · exact absurd hdollar hlabel
    · -- Both lines declare the symbol of the jump.
      have hown' := Line.declares?_of_label? options hdeclares
      have hlabel' := Line.declares?_of_label? options hlabel
      rw [Line.symbol_eq options (hfunction.trans hf.symm), hsymbol] at hown'
      rw [← eq_of_declares? hnodup hown hl' hown' hlabel']
      exact hfunction

/-- Two functions with the same label, one of which is written like a label of
    the other. -/
def privateUnits : List (String × String) :=
  [("Main", "function A 0\nlabel LOOP\nif-goto LOOP\nlabel B$C\ngoto B$C"),
   ("Rest", "label LOOP\nfunction A$B 0\nlabel LOOP\ngoto LOOP\ngoto C\nreturn")]

/-- Labels are kept per function, and nothing else is asked for. -/
def privateOptions : Options :=
  { echoSource := false, scopeLabels := true, bootstrap := false }

theorem scoped_labels_private_privateUnits :
    ∃ compilation, compileProgram privateOptions privateUnits = .ok compilation ∧
      (∀ d ∈ compilation.log.entries.toList, d.severity ≠ .warning) ∧
      (∃ l ∈ programLines privateUnits, l.function? = some "A" ∧ l.jump? = some "B$C" ∧
        ∀ l' ∈ programLines privateUnits, ∀ label ∈ l'.label?,
          l.symbol privateOptions "B$C" = l'.symbol privateOptions label →
            l'.function? = some "A") ∧
      ∃ l ∈ programLines privateUnits, l.function? = some "A$B" ∧ l.jump? = some "C" ∧
        ∃ l' ∈ programLines privateUnits, l'.function? = some "A" ∧ l'.label? = some "B$C" ∧
          l.symbol privateOptions "C" = l'.symbol privateOptions "B$C" := by
  have hlog : (compileProgram privateOptions privateUnits).toOption.any (fun compilation =>
      ∀ d ∈ compilation.log.entries.toList, d.severity ≠ .warning) = true := by decide +kernel
  have hown : ∃ l ∈ programLines privateUnits, l.function? = some "A" ∧
      l.label? = some "B$C" := by decide +kernel
  have hjump : ∃ l ∈ programLines privateUnits, l.function? = some "A" ∧
      l.jump? = some "B$C" := by decide +kernel
  have hjump' : ∃ l ∈ programLines privateUnits, l.function? = some "A$B" ∧
      l.jump? = some "C" := by decide +kernel
  rcases exists_ok_of_any hlog with ⟨compilation, hcompile, hpassed⟩
  have hquiet := of_decide_eq_true hpassed
  have hreach := (scoped_labels_private rfl hcompile hquiet).2
  refine ⟨compilation, hcompile, hquiet, ?_, ?_⟩
  · rcases hjump with ⟨l, hl, hfunction, hjump⟩
    refine ⟨l, hl, hfunction, hjump, fun l' hl' label hlabel hsymbol => ?_⟩
    exact (hreach l hl "A" hfunction "B$C" hjump l' hl' label hlabel).2 hsymbol (Or.inr hown)
  · rcases hjump' with ⟨l, hl, hfunction, hjump⟩
    rcases hown with ⟨l', hl', hfunction', hlabel⟩
    refine ⟨l, hl, hfunction, hjump, l', hl', hfunction', hlabel, ?_⟩
    refine (hreach l hl "A$B" hfunction "C" hjump l' hl' "B$C" hlabel).1.mpr (Or.inr ?_)
    rw [hfunction']
    exact Or.inr ⟨"B", by decide, by decide⟩

/-- A function jumps to a label of another one. -/
def strayUnits : List (String × String) :=
  [("Main", "function A 0\ngoto B$C\nfunction A$B 0\nlabel C")]

/-- Nothing is reported, and the jump still leaves its function. -/
theorem quiet_jump_strays :
    ∃ compilation, compileProgram privateOptions strayUnits = .ok compilation ∧
      compilation.log = .empty ∧
      ∃ l ∈ programLines strayUnits, l.function? = some "A" ∧ l.jump? = some "B$C" ∧
        ∃ l' ∈ programLines strayUnits, l'.function? = some "A$B" ∧ l'.label? = some "C" ∧
          l.symbol privateOptions "B$C" = l'.symbol privateOptions "C" := by
  have hlog : (compileProgram privateOptions strayUnits).toOption.any (fun compilation =>
      compilation.log = .empty) = true := by decide +kernel
  rcases exists_ok_of_any hlog with ⟨compilation, hcompile, hpassed⟩
  exact ⟨compilation, hcompile, of_decide_eq_true hpassed, by decide +kernel⟩

end HackVM
