import HackVM.Proofs.Alignment

/-!
# Where Label Numbers Start

The code of a unit does not depend on the names that came before it.

A unit can be compiled in any context, and the label numbers of the context
show in the listing: every generated label has another number if the context
has. The assembled code does not tell the difference. Two label supplies that
started apart and gave out equally many labels of each kind are abreast of each
other, and the labels that they give out next have the same stem and are equally
far from where their supplies started. Such labels correspond one by one. Names
that were written correspond to themselves, which takes that none of them has
the shape of a generated label: a number in it would not be shifted.

The labels recorded in the context matter for warnings only.

## Main definitions

* `Line.names`: The names that a line writes, as they stand in the code.
* `LabelSupply.Abreast`: Two supplies have come equally far.
* `LabelSupply.Shifted`: Symbols of the code that correspond.

## Theorems

* `LabelSupply.renaming_shifted`: Symbols correspond one by one.
* `LabelSupply.paired_shifted`: Supplies that are abreast stay so, and give out
  labels that correspond.
* `compileUnit_code_eq`: The code of a unit is the same in all contexts with
  its unit and function.
-/

namespace HackVM

/-- The names that a line writes, as they stand in the code. -/
def Line.names (options : Options) (l : Line) : List String :=
  (l.declares? options).toList ++ (l.target? options).toList ++ l.static?.toList

namespace LabelSupply

/-- Two supplies that have come equally far from where they started, in both
    sequences. -/
def Abreast (start start' supply supply' : LabelSupply) : Prop :=
  ∀ stem, ∃ distance, supply.nextFor stem = start.nextFor stem + distance ∧
    supply'.nextFor stem = start'.nextFor stem + distance

/-- Symbols that correspond: generated labels with the same stem, equally far
    from where the supplies started, and all others to themselves. -/
def Shifted (start start' : LabelSupply) (name name' : String) : Prop :=
  (isGenerated name = false ∧ name = name') ∨
    ∃ stem : String, ∃ distance,
      (isReturnStem stem.toList = true ∨ isComparisonStem stem.toList = true) ∧
      name = stem ++ (start.nextFor stem.toList + distance).repr ∧
      name' = stem ++ (start'.nextFor stem.toList + distance).repr

variable {start start' supply supply' after after' : LabelSupply} {stem : String}

theorem Shifted.symm {name name' : String} (h : Shifted start start' name name') :
    Shifted start' start name' name := by
  rcases h with ⟨hwritten, rfl⟩ | ⟨stem, distance, hstem, rfl, rfl⟩
  · exact Or.inl ⟨hwritten, rfl⟩
  · exact Or.inr ⟨stem, distance, hstem, rfl, rfl⟩

/-- A symbol corresponds to one symbol only. -/
theorem Shifted.unique {name name' name'' : String} (h : Shifted start start' name name')
    (h' : Shifted start start' name name'') : name' = name'' := by
  rcases h with ⟨hwritten, rfl⟩ | ⟨stem, distance, hstem, hname, rfl⟩
  · rcases h' with ⟨-, rfl⟩ | ⟨stem, distance, hstem, hname, -⟩
    · rfl
    · rw [hname, (isGenerated_append_repr hstem _).1] at hwritten
      cases hwritten
  · rcases h' with ⟨hwritten, -⟩ | ⟨stem', distance', hstem', hname', rfl⟩
    · rw [hname, (isGenerated_append_repr hstem _).1] at hwritten
      cases hwritten
    · -- The label can be taken apart, so both ways to make it are the same.
      have hsplit := split_of_stem hstem (start.nextFor stem.toList + distance)
      have hsplit' := split_of_stem hstem' (start.nextFor stem'.toList + distance')
      rw [← hname] at hsplit
      rw [← hname'] at hsplit'
      have heq : stem = stem' :=
        String.toList_inj.mp (Option.some.inj (hsplit.1.symm.trans hsplit'.1))
      have hnumber := hsplit.2.symm.trans hsplit'.2
      subst heq
      rw [Nat.add_left_cancel hnumber]

theorem lookup_of_isGenerated {label : String} (h : isGenerated label = true) :
    predefinedSymbols.lookup label = none := by
  cases hlookup : predefinedSymbols.lookup label with
  | none => rfl
  | some address =>
      have hmachine : isPredefined label = true := by
        rw [isPredefined_eq_isSome_lookup, hlookup]
        rfl
      rw [isGenerated_of_isPredefined hmachine] at h
      cases h

/-- Symbols correspond one by one, and those of the machine to themselves. -/
theorem renaming_shifted (start start' : LabelSupply) : Renaming (Shifted start start') where
  unique := ⟨fun _ _ _ h h' => h.symm.unique h'.symm, fun _ _ _ h h' => h.unique h'⟩
  lookup := by
    rintro name name' (⟨-, rfl⟩ | ⟨stem, distance, hstem, rfl, rfl⟩)
    · rfl
    · rw [lookup_of_isGenerated (isGenerated_append_repr hstem _).1,
        lookup_of_isGenerated (isGenerated_append_repr hstem _).1]

theorem Abreast.refl (start start' : LabelSupply) : Abreast start start' start start' :=
  fun _ => ⟨0, rfl, rfl⟩

/-- Supplies that are abreast stay so if both move by the same distances. -/
theorem Abreast.step (h : Abreast start start' supply supply') {distance : List Char → Nat}
    (hafter : ∀ stem, after.nextFor stem = supply.nextFor stem + distance stem)
    (hafter' : ∀ stem, after'.nextFor stem = supply'.nextFor stem + distance stem) :
    Abreast start start' after after' := by
  intro stem
  rcases h stem with ⟨before, hbefore, hbefore'⟩
  refine ⟨before + distance stem, ?_, ?_⟩
  · rw [hafter, hbefore, Nat.add_assoc]
  · rw [hafter', hbefore', Nat.add_assoc]

/-- The next labels of supplies that are abreast correspond. -/
theorem Abreast.shifted (h : Abreast start start' supply supply')
    (hstem : isReturnStem stem.toList = true ∨ isComparisonStem stem.toList = true) :
    Shifted start start' (stem ++ (supply.nextFor stem.toList).repr)
      (stem ++ (supply'.nextFor stem.toList).repr) := by
  rcases h stem.toList with ⟨distance, hnext, hnext'⟩
  exact Or.inr ⟨stem, distance, hstem, by rw [hnext], by rw [hnext']⟩

/-- A comparison moves its sequence on by one. -/
theorem nextFor_of_comparison {op : Operation} {labels : ComparisonLabels}
    (h : supply.comparison op = .ok (labels, after)) (stem : List Char) :
    after.nextFor stem = supply.nextFor stem + if isComparisonStem stem then 1 else 0 := by
  rcases comparison_eq_ok_iff.mp h with ⟨-, hvalue, hreturn⟩
  simp only [nextFor, hvalue, hreturn]
  split <;> rfl

/-- A call moves the other sequence on. -/
theorem nextFor_of_returnAddress {callee label : String}
    (h : supply.returnAddress callee = .ok (label, after)) (stem : List Char) :
    after.nextFor stem = supply.nextFor stem + if isComparisonStem stem then 0 else 1 := by
  rcases returnAddress_eq_ok_iff.mp h with ⟨-, hvalue, hcomparison⟩
  simp only [nextFor, hvalue, hcomparison]
  split <;> rfl

/-- Supplies that are abreast give out labels that correspond, and stay
    abreast. -/
theorem paired_shifted (start start' : LabelSupply) :
    Paired (Abreast start start') (Shifted start start') where
  comparison := by
    intro supply supply' after after' op jump labels labels' habreast hop h h'
    rcases comparison_eq_ok_iff.mp h with ⟨rfl, -⟩
    rcases comparison_eq_ok_iff.mp h' with ⟨rfl, -⟩
    -- Both labels of a comparison take the same number.
    have hshifted : ∀ stem ∈ [op.trueStem, op.finishStem],
        Shifted start start' (stem ++ supply.nextComparison.value.repr)
          (stem ++ supply'.nextComparison.value.repr) := by
      intro stem hmem
      have hstem := isComparisonStem_of_jump? hop stem hmem
      have hnext := habreast.shifted (Or.inr hstem)
      simpa only [nextFor, hstem, if_true] using hnext
    exact ⟨⟨hshifted _ List.mem_cons_self, hshifted _ (List.mem_cons_of_mem _ List.mem_cons_self)⟩,
      habreast.step (nextFor_of_comparison h) (nextFor_of_comparison h')⟩
  returnAddress := by
    intro supply supply' after after' callee label label' habreast hcallee h h'
    rcases returnAddress_eq_ok_iff.mp h with ⟨rfl, -⟩
    rcases returnAddress_eq_ok_iff.mp h' with ⟨rfl, -⟩
    have hreturn := isReturnStem_append (ne_empty_of_isName hcallee)
    have hnext := habreast.shifted (Or.inl hreturn)
    simp only [nextFor, isComparisonStem_of_isReturnStem hreturn, Bool.false_eq_true,
      if_false] at hnext
    exact ⟨hnext, habreast.step (nextFor_of_returnAddress h) (nextFor_of_returnAddress h')⟩

end LabelSupply

/-- The code of a unit is the same in all contexts with its unit and function,
    whatever the numbers of the next labels are and whatever labels are recorded:
    either both texts have the same code, or both are refused. -/
theorem compileUnit_code_eq {options : Options} {ctx ctx' : Context} {text : String}
    {s s' : Compiling} (hunit : isName ctx.unit = true)
    (hfunction : ∀ name, ctx.function? = some name → isName name = true)
    (hunit' : ctx'.unit = ctx.unit) (hfunction' : ctx'.function? = ctx.function?)
    (hnames : ∀ l ∈ placeLines ctx.unit ctx.function? (parseLines text),
      ∀ name ∈ l.names options, isGenerated name = false)
    (h : compileUnit options ctx text = .ok s) (h' : compileUnit options ctx' text = .ok s') :
    (assemble s.output.text).toOption.map Image.code =
      (assemble s'.output.text).toOption.map Image.code := by
  have htrace := (trace_of_compileUnit h).1
  have htrace' := (trace_of_compileUnit h').1
  have hprintable := printable_of_compileUnit hunit hfunction h
  have hprintable' := printable_of_compileUnit (hunit'.symm ▸ hunit)
    (hfunction'.symm ▸ hfunction) h'
  rw [hunit', hfunction'] at htrace'
  -- What an entry writes corresponds to itself.
  have hwritten : ∀ entry ∈ unitEntries options ctx.unit ctx.function? text,
      ∀ name, name ∈ entry.declares? options ∨ name ∈ entry.target? options ∨
        name ∈ entry.static? → LabelSupply.Shifted ctx.labels ctx'.labels name name := by
    intro entry hentry name hname
    refine Or.inl ⟨?_, rfl⟩
    rcases mem_unitEntries hentry with rfl | ⟨l, hl, rfl⟩
    · rcases hname with hname | hname | hname
      · cases hname
      · cases hname
        decide
      · cases hname
    · refine hnames l hl name ?_
      simp only [Line.names, List.mem_append, Option.mem_toList, or_assoc]
      exact hname
  have hmachine : ∀ name ∈ machineNames, LabelSupply.Shifted ctx.labels ctx'.labels name name := by
    have hall : ∀ name ∈ machineNames, isGenerated name = false := by decide
    exact fun name hname => Or.inl ⟨hall name hname, rfl⟩
  have hlabels := htrace.labels_paired (LabelSupply.paired_shifted ctx.labels ctx'.labels) htrace'
    (LabelSupply.Abreast.refl _ _) (by
      intro entry hentry name hname name' hname'
      rw [← Option.mem_unique hname hname']
      exact hwritten entry hentry name (Or.inl hname))
  refine assemble_renamed_blocks (LabelSupply.renaming_shifted ctx.labels ctx'.labels) _ _ hprintable
    hprintable' (htrace.renamed hmachine htrace' ?_ ?_ hlabels)
  · intro entry hentry name hname
    exact hwritten entry hentry name (Or.inr (Or.inr hname))
  · intro entry hentry name hname name' hname'
    rw [← Option.mem_unique hname hname']
    exact hwritten entry hentry name (Or.inr (Or.inl hname))

/-- A unit with labels of both kinds, before and behind their use. -/
def numberedText : String :=
  "push static 3\neq\nif-goto loop\nlabel loop\ncall Main.g 1\n" ++
  "function Main.g 1\nlabel loop\nlt\ngoto loop\ncall Main.g 0\nreturn"

/-- Labels are kept per function, and the program is given a start. -/
def numberedOptions : Options :=
  { echoSource := true, scopeLabels := true, bootstrap := true }

/-- Inside a function, before any label. -/
def earlyContext : Context :=
  (Context.initial "Main").enterFunction "Main.f"

/-- In the same place, when many labels have been given out and recorded. -/
def lateContext : Context :=
  { unit := "Main"
    labels := { nextComparison := ⟨9, by decide⟩, nextReturn := ⟨99, by decide⟩ }
    function? := some "Main.f"
    declared := (∅ : Std.TreeSet String).insert "Main.f$loop" }

theorem compileUnit_code_eq_numberedText :
    isName earlyContext.unit = true ∧
    (∀ name, earlyContext.function? = some name → isName name = true) ∧
    lateContext.unit = earlyContext.unit ∧ lateContext.function? = earlyContext.function? ∧
    (∀ l ∈ placeLines earlyContext.unit earlyContext.function? (parseLines numberedText),
      ∀ name ∈ l.names numberedOptions, isGenerated name = false) ∧
    ∃ s s' image image', compileUnit numberedOptions earlyContext numberedText = .ok s ∧
      compileUnit numberedOptions lateContext numberedText = .ok s' ∧
      declaredLabels s.output.instructions ≠ declaredLabels s'.output.instructions ∧
      assemble s.output.text = .ok image ∧ assemble s'.output.text = .ok image' ∧
      image.code = image'.code := by
  have hunit : isName earlyContext.unit = true := by decide
  have hfunction : ∀ name, earlyContext.function? = some name → isName name = true := by
    rintro name ⟨⟩
    decide
  have hunit' : lateContext.unit = earlyContext.unit := rfl
  have hfunction' : lateContext.function? = earlyContext.function? := rfl
  have hnames : ∀ l ∈ placeLines earlyContext.unit earlyContext.function? (parseLines numberedText),
      ∀ name ∈ l.names numberedOptions, isGenerated name = false := by decide +kernel
  have hfacts : (compileUnit numberedOptions earlyContext numberedText).toOption.any (fun s =>
      (compileUnit numberedOptions lateContext numberedText).toOption.any (fun s' =>
        declaredLabels s.output.instructions ≠ declaredLabels s'.output.instructions ∧
          canAssemble s.output.instructions = true)) = true := by
    decide +kernel
  refine ⟨hunit, hfunction, hunit', hfunction', hnames, ?_⟩
  rcases exists_ok_of_any hfacts with ⟨s, h, hlate⟩
  rcases exists_ok_of_any hlate with ⟨s', h', hpassed⟩
  rcases of_decide_eq_true hpassed with ⟨hlabels, hcan⟩
  have hprintable := printable_of_compileUnit hunit hfunction h
  rcases exists_assemble_of_canAssemble s.output.echoSource hprintable hcan with ⟨image, himage⟩
  -- The other text has the same words, so it is assembled as well.
  have hcode := compileUnit_code_eq hunit hfunction hunit' hfunction' hnames h h'
  rw [Compilation.text, himage] at hcode
  cases himage' : assemble s'.output.text with
  | error cause =>
      rw [himage'] at hcode
      cases hcode
  | ok image' =>
      rw [himage'] at hcode
      exact ⟨s, s', image, image', h, h', hlabels, himage, himage', Option.some.inj hcode⟩

end HackVM
