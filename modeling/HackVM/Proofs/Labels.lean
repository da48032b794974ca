import HackVM.Proofs.Layout
import HackVM.Proofs.Trace

/-!
# Labels of a Program

Which labels the code of a program declares, and where they come from.

A block declares the label that its line declares, if it does, and the labels
that were generated for it. Taking the digits off the end of a generated label
gives back its stem and its number, so a label that was generated is told from
the next one by its number alone: a label is past for a supply if its number is
below the next one of its kind. A supply gives out labels that are not past,
and afterwards they are.

## Main definitions

* `labelNumber`: The number at the end of a label.
* `LabelSupply.IsPast`: A label that the supply does not give out any more.
* `LabelSupply.Gives`: What giving out labels means.

## Theorems

* `LabelSupply.comparison_eq_ok_iff`, `LabelSupply.returnAddress_eq_ok_iff`: What a
  comparison and a call take from the supply.
* `LabelSupply.gives_comparison`, `LabelSupply.gives_returnAddress`: The labels
  of comparisons and calls are given out.
* `Lowers.declares`, `Compiles.declares`: The labels of a block.
-/

namespace HackVM

open Instruction

/-- The number at the end of a label. -/
def labelNumber (label : List Char) : Nat :=
  Text.numeralValue (label.reverse.takeWhile Char.isDigit).reverse

section Stems

variable {stem : List Char}

/-- A numeral behind a stem that does not end in a digit is found again, and so
    is the stem. -/
theorem split_append_numeral {last : Char} (hlast : stem.getLast? = some last)
    (hdigit : last.isDigit = false) {digits : List Char} (hdigits : Text.isNumeral digits = true) :
    numberedStem? (stem ++ digits) = some stem ∧
      labelNumber (stem ++ digits) = Text.numeralValue digits := by
  simp only [Text.isNumeral, Bool.and_eq_true, Bool.not_eq_true', List.isEmpty_eq_false_iff,
    List.all_eq_true] at hdigits
  have hback : ∀ c ∈ digits.reverse, c.isDigit = true := fun c hc =>
    hdigits.2 c (List.mem_reverse.mp hc)
  rcases List.getLast?_eq_some_iff.mp hlast with ⟨front, hstem⟩
  -- Read from behind, the digits are followed by the end of the stem.
  have hrest : stem.reverse = last :: front.reverse := by
    rw [hstem, List.reverse_append]
    rfl
  have htake : stem.reverse.takeWhile Char.isDigit = [] := by
    rw [hrest, List.takeWhile_cons_of_neg (by rw [hdigit]; exact Bool.false_ne_true)]
  have hdrop : stem.reverse.dropWhile Char.isDigit = stem.reverse := by
    rw [hrest, List.dropWhile_cons_of_neg (by rw [hdigit]; exact Bool.false_ne_true)]
  constructor
  · simp only [numberedStem?, List.reverse_append, List.takeWhile_append_of_pos hback,
      List.dropWhile_append_of_pos hback, htake, hdrop, List.append_nil, List.reverse_reverse]
    rw [if_neg]
    simpa using hdigits.1
  · simp only [labelNumber, List.reverse_append, List.takeWhile_append_of_pos hback, htake,
      List.append_nil, List.reverse_reverse]

/-- So is a number. -/
theorem split_append_repr {last : Char} (hlast : stem.getLast? = some last)
    (hdigit : last.isDigit = false) (n : Nat) :
    numberedStem? (stem ++ n.repr.toList) = some stem ∧
      labelNumber (stem ++ n.repr.toList) = n := by
  have hsplit := split_append_numeral hlast hdigit (Text.isNumeral_repr n)
  rw [Text.numeralValue_repr] at hsplit
  exact hsplit

theorem getLast?_of_isComparisonStem (h : isComparisonStem stem = true) :
    stem.getLast? = some '_' := by
  simp only [isComparisonStem, List.any_cons, List.any_nil, Bool.or_false, Bool.or_eq_true,
    beq_iff_eq] at h
  rcases h with (rfl | rfl) | (rfl | rfl) | rfl | rfl <;> decide

theorem getLast?_of_isReturnStem (h : isReturnStem stem = true) : stem.getLast? = some '.' := by
  unfold isReturnStem at h
  rcases List.isSuffixOf_iff_suffix.mp (Bool.and_eq_true_iff.mp h).1 with ⟨callee, rfl⟩
  rw [List.getLast?_append_of_ne_nil _ (by decide)]
  decide

/-- No stem is of both kinds. -/
theorem isComparisonStem_of_isReturnStem (h : isReturnStem stem = true) :
    isComparisonStem stem = false := by
  by_contra hcomparison
  have hlast := getLast?_of_isComparisonStem (Bool.of_not_eq_false hcomparison)
  rw [getLast?_of_isReturnStem h] at hlast
  cases hlast

/-- The stems of a comparison. -/
theorem isComparisonStem_of_jump? {op : Operation} {jump : Jump} (hop : op.jump? = some jump) :
    ∀ stem ∈ [op.trueStem, op.finishStem], isComparisonStem stem.toList = true := by
  cases op <;> first | decide | cases hop

theorem ne_empty_of_isName {name : String} (h : isName name = true) : name ≠ "" := by
  rintro rfl
  cases h

/-- The stem of a call. -/
theorem isReturnStem_append {callee : String} (hcallee : callee ≠ "") :
    isReturnStem (callee ++ returnMark).toList = true := by
  have hlength : 0 < callee.toList.length :=
    List.length_pos_iff.mpr fun hnil => hcallee (String.toList_eq_nil_iff.mp hnil)
  simp only [isReturnStem, String.toList_append, Bool.and_eq_true, decide_eq_true_eq,
    List.length_append, String.length_toList]
  rw [String.length_toList] at hlength
  exact ⟨List.isSuffixOf_iff_suffix.mpr (List.suffix_append _ _), by omega⟩

/-- No stem ends in a digit. -/
theorem exists_last_of_stem (hstem : isReturnStem stem = true ∨ isComparisonStem stem = true) :
    ∃ last, stem.getLast? = some last ∧ last.isDigit = false := by
  rcases hstem with hreturn | hcomparison
  · exact ⟨'.', getLast?_of_isReturnStem hreturn, by decide⟩
  · exact ⟨'_', getLast?_of_isComparisonStem hcomparison, by decide⟩

/-- A label that is made from a stem of either kind can be taken apart. -/
theorem split_of_stem {stem : String}
    (hstem : isReturnStem stem.toList = true ∨ isComparisonStem stem.toList = true) (n : Nat) :
    numberedStem? (stem ++ n.repr).toList = some stem.toList ∧
      labelNumber (stem ++ n.repr).toList = n := by
  rcases exists_last_of_stem hstem with ⟨last, hlast, hdigit⟩
  rw [String.toList_append]
  exact split_append_repr hlast hdigit n

end Stems

/-- No name of the machine has the shape of a generated label. -/
theorem isGenerated_of_isPredefined {label : String} (h : isPredefined label = true) :
    isGenerated label = false := by
  have hall : ∀ entry ∈ predefinedSymbols, isGenerated entry.1 = false := by decide
  rcases List.any_eq_true.mp h with ⟨entry, hentry, hlabel⟩
  rw [← beq_iff_eq.mp hlabel]
  exact hall entry hentry

namespace LabelSupply

variable {supply supply' : LabelSupply}

/-- The number of the next label with a stem. -/
def nextFor (supply : LabelSupply) (stem : List Char) : Nat :=
  if isComparisonStem stem then supply.nextComparison.value else supply.nextReturn.value

/-- The supply does not give out the label any more: labels with its stem have
    come to a higher number. -/
def IsPast (supply : LabelSupply) (label : String) : Prop :=
  ∀ stem, numberedStem? label.toList = some stem →
    labelNumber label.toList < supply.nextFor stem

/-- A supply gives out labels: each is generated, none was given out before and
    all of them have been afterwards. -/
structure Gives (supply : LabelSupply) (labels : List String) (supply' : LabelSupply) : Prop where
  generated : ∀ label ∈ labels, isGenerated label = true
  notPast : ∀ label ∈ labels, ¬supply.IsPast label
  past : ∀ label ∈ labels, supply'.IsPast label
  mono : ∀ label, supply.IsPast label → supply'.IsPast label
  nodup : labels.Nodup

theorem gives_nil (supply : LabelSupply) : supply.Gives [] supply :=
  ⟨nofun, nofun, nofun, fun _ h => h, List.nodup_nil⟩

/-- A label that is made from a stem of either kind is generated, and whether it
    is past is a matter of its number. -/
theorem isGenerated_append_repr {stem : String}
    (hstem : isReturnStem stem.toList = true ∨ isComparisonStem stem.toList = true) (n : Nat) :
    isGenerated (stem ++ n.repr) = true ∧
      ∀ supply : LabelSupply, supply.IsPast (stem ++ n.repr) ↔ n < supply.nextFor stem.toList := by
  have hsplit := split_of_stem hstem n
  constructor
  · unfold isGenerated
    rw [hsplit.1]
    exact Bool.or_eq_true_iff.mpr hstem
  · intro supply
    unfold IsPast
    rw [hsplit.1, hsplit.2]
    constructor
    · intro h
      exact h stem.toList rfl
    · intro h stem' heq
      cases heq
      exact h

/-- Giving out the next number to several stems that share a sequence. -/
theorem gives_of_stems (stems : List String) {n : Nat}
    (hstems : ∀ stem ∈ stems, isReturnStem stem.toList = true ∨ isComparisonStem stem.toList = true)
    (hnodup : stems.Nodup) (hbefore : ∀ stem ∈ stems, supply.nextFor stem.toList = n)
    (hafter : ∀ stem ∈ stems, supply'.nextFor stem.toList = n + 1)
    (hmono : ∀ stem, supply.nextFor stem ≤ supply'.nextFor stem) :
    supply.Gives (stems.map (· ++ n.repr)) supply' := by
  refine ⟨?_, ?_, ?_, ?_, ?_⟩
  · intro label hlabel
    rcases List.mem_map.mp hlabel with ⟨stem, hstem, rfl⟩
    exact (isGenerated_append_repr (hstems stem hstem) n).1
  · intro label hlabel
    rcases List.mem_map.mp hlabel with ⟨stem, hstem, rfl⟩
    rw [(isGenerated_append_repr (hstems stem hstem) n).2, hbefore stem hstem]
    exact Nat.lt_irrefl n
  · intro label hlabel
    rcases List.mem_map.mp hlabel with ⟨stem, hstem, rfl⟩
    rw [(isGenerated_append_repr (hstems stem hstem) n).2, hafter stem hstem]
    exact Nat.lt_succ_self n
  · intro label hpast stem hstem
    exact Nat.lt_of_lt_of_le (hpast stem hstem) (hmono stem)
  · refine hnodup.map ?_
    intro stem stem' heq
    exact String.append_left_inj n.repr |>.mp heq

/-- A comparison takes the next number of its sequence, for both labels. -/
theorem comparison_eq_ok_iff {op : Operation} {labels : ComparisonLabels} :
    supply.comparison op = .ok (labels, supply') ↔
      labels = { ifTrue := op.trueStem ++ supply.nextComparison.value.repr
                 finish := op.finishStem ++ supply.nextComparison.value.repr } ∧
        supply'.nextComparison.value = supply.nextComparison.value + 1 ∧
        supply'.nextReturn = supply.nextReturn := by
  constructor
  · intro h
    rcases map_eq_ok_iff.mp h with ⟨following, hnext, heq⟩
    cases heq
    exact ⟨rfl, Counter.next_eq_ok_iff.mp hnext, rfl⟩
  · rintro ⟨rfl, hvalue, hreturn⟩
    exact map_eq_ok_iff.mpr ⟨_, Counter.next_eq_ok_iff.mpr hvalue, by rw [← hreturn]⟩

/-- A call takes the next number of the other sequence. -/
theorem returnAddress_eq_ok_iff {callee label : String} :
    supply.returnAddress callee = .ok (label, supply') ↔
      label = callee ++ returnMark ++ supply.nextReturn.value.repr ∧
        supply'.nextReturn.value = supply.nextReturn.value + 1 ∧
        supply'.nextComparison = supply.nextComparison := by
  constructor
  · intro h
    rcases map_eq_ok_iff.mp h with ⟨following, hnext, heq⟩
    cases heq
    exact ⟨rfl, Counter.next_eq_ok_iff.mp hnext, rfl⟩
  · rintro ⟨rfl, hvalue, hcomparison⟩
    exact map_eq_ok_iff.mpr ⟨_, Counter.next_eq_ok_iff.mpr hvalue, by rw [← hcomparison]⟩

/-- The labels of a comparison are given out. -/
theorem gives_comparison {op : Operation} {jump : Jump} {labels : ComparisonLabels}
    (hop : op.jump? = some jump) (h : supply.comparison op = .ok (labels, supply')) :
    supply.Gives [labels.ifTrue, labels.finish] supply' := by
  rcases comparison_eq_ok_iff.mp h with ⟨rfl, hvalue, hreturn⟩
  have hcomparison := isComparisonStem_of_jump? hop
  refine gives_of_stems [op.trueStem, op.finishStem] ?_ ?_ ?_ ?_ ?_
  · intro stem hstem
    exact Or.inr (hcomparison stem hstem)
  · cases op <;> decide
  · intro stem hstem
    unfold nextFor
    rw [if_pos (hcomparison stem hstem)]
  · intro stem hstem
    unfold nextFor
    rw [if_pos (hcomparison stem hstem)]
    exact hvalue
  · intro stem
    simp only [nextFor, hreturn]
    split <;> omega

/-- The label behind a call is given out. -/
theorem gives_returnAddress {callee label : String} (hcallee : callee ≠ "")
    (h : supply.returnAddress callee = .ok (label, supply')) : supply.Gives [label] supply' := by
  rcases returnAddress_eq_ok_iff.mp h with ⟨rfl, hvalue, hcomparison⟩
  have hreturn := isReturnStem_append hcallee
  have hnot := isComparisonStem_of_isReturnStem hreturn
  refine gives_of_stems [callee ++ returnMark] ?_ (List.nodup_singleton _) ?_ ?_ ?_
  · intro stem hstem
    rw [List.mem_singleton.mp hstem]
    exact Or.inl hreturn
  · intro stem hstem
    rw [List.mem_singleton.mp hstem]
    simp only [nextFor, hnot, Bool.false_eq_true, if_false]
  · intro stem hstem
    rw [List.mem_singleton.mp hstem]
    simp only [nextFor, hnot, Bool.false_eq_true, if_false]
    exact hvalue
  · intro stem
    simp only [nextFor, hcomparison]
    split <;> omega

end LabelSupply

theorem Context.isDeclared_declare (ctx : Context) (label name : String) :
    (ctx.declare label).isDeclared name = true ↔ name = label ∨ ctx.isDeclared name = true := by
  simp only [declare, isDeclared, Std.TreeSet.contains_insert, Bool.or_eq_true, beq_iff_eq,
    Std.LawfulEqOrd.compare_eq_iff_eq]
  exact or_congr_left eq_comm

section Blocks

variable {options : Options} {ctx ctx' : Context} {command : Command} {code : List Instruction}

theorem declaredLabels_enter (name : String) (locals : Word) :
    declaredLabels (Lowering.enter name locals) = [name] := by
  have hzeros : declaredLabels (List.replicate locals.toNat Lowering.pushZero).flatten = [] := by
    refine List.filterMap_eq_nil_iff.mpr ?_
    intro i hi
    have hzero : ∀ i ∈ Lowering.pushZero, i.label? = none := by decide
    exact hzero i (mem_pushZero_of_mem_flatten hi)
  show name :: declaredLabels (List.replicate locals.toNat Lowering.pushZero).flatten = [name]
  rw [hzeros]

theorem declaredLabels_push (access : Access) : declaredLabels access.push = [] := by
  cases access <;> rfl

theorem declaredLabels_pop {access : Access} (h : access.pop = .ok code) :
    declaredLabels code = [] := by
  cases access <;> cases h <;> rfl

theorem declaredLabels_operation {op : Operation} (hop : op.jump? = none)
    (h : Lowering.operation ctx op = .ok (code, ctx')) : declaredLabels code = [] := by
  cases op with
  | eq | gt | lt => cases hop
  | _ =>
      cases h
      rfl

theorem Context.comparison_of_mint {op : Operation} {labels : ComparisonLabels}
    (h : ctx.mintComparison op = .ok (labels, ctx')) :
    ctx.labels.comparison op = .ok (labels, ctx'.labels) := by
  rcases map_eq_ok_iff.mp h with ⟨⟨minted, supply⟩, hmint, heq⟩
  cases heq
  exact hmint

theorem Context.returnAddress_of_mint {callee label : String}
    (h : ctx.mintReturn callee = .ok (label, ctx')) :
    ctx.labels.returnAddress callee = .ok (label, ctx'.labels) := by
  rcases map_eq_ok_iff.mp h with ⟨⟨minted, supply⟩, hmint, heq⟩
  cases heq
  exact hmint

/-- Minting a label behind a call gives it out and records it. -/
theorem Context.gives_of_mintReturn {callee label : String} (hcallee : isName callee = true)
    (h : ctx.mintReturn callee = .ok (label, ctx')) :
    ctx.labels.Gives [label] ctx'.labels ∧
      ∀ name, ctx'.isDeclared name = true ↔ name ∈ [label] ∨ ctx.isDeclared name = true := by
  have hne := ne_empty_of_isName hcallee
  rcases map_eq_ok_iff.mp h with ⟨⟨minted, supply⟩, hmint, heq⟩
  cases heq
  refine ⟨LabelSupply.gives_returnAddress hne hmint, ?_⟩
  intro name
  rw [Context.isDeclared_declare, List.mem_singleton]
  rfl

/-- Minting the labels of a comparison gives them out and records them. -/
theorem Context.gives_of_mintComparison {op : Operation} {jump : Jump} {labels : ComparisonLabels}
    (hop : op.jump? = some jump) (h : ctx.mintComparison op = .ok (labels, ctx')) :
    ctx.labels.Gives [labels.ifTrue, labels.finish] ctx'.labels ∧
      ∀ name, ctx'.isDeclared name = true ↔
        name ∈ [labels.ifTrue, labels.finish] ∨ ctx.isDeclared name = true := by
  rcases map_eq_ok_iff.mp h with ⟨⟨minted, supply⟩, hmint, heq⟩
  cases heq
  refine ⟨LabelSupply.gives_comparison hop hmint, ?_⟩
  intro name
  rw [Context.isDeclared_declare, Context.isDeclared_declare]
  show name = labels.finish ∨ name = labels.ifTrue ∨ ctx.isDeclared name = true ↔ _
  simp only [List.mem_cons, List.not_mem_nil, or_false]
  rw [or_left_comm, or_assoc]

/-- The labels of the code of a command: the one that it declares, and those
    that were minted for it, which are recorded. -/
theorem Lowers.declares (h : Lowers options ctx command code ctx') (hformed : command.WellFormed) :
    ∃ minted, declaredLabels code =
        ((command.declaration? options ctx).map Prod.snd).toList ++ minted ∧
      ctx.labels.Gives minted ctx'.labels ∧
      ∀ name, ctx'.isDeclared name = true ↔ name ∈ minted ∨ ctx.isDeclared name = true := by
  -- All but comparisons and calls mint nothing and leave the labels as they are.
  have hnone : ∀ name, ctx.isDeclared name = true ↔ name ∈ [] ∨ ctx.isDeclared name = true := by
    intro name
    simp only [List.not_mem_nil, false_or]
  cases h with
  | compare hop hmint => exact ⟨_, rfl, Context.gives_of_mintComparison hop hmint⟩
  | call hmint => exact ⟨_, rfl, Context.gives_of_mintReturn (hformed.names _ rfl) hmint⟩
  | function name locals =>
      exact ⟨[], declaredLabels_enter name locals, LabelSupply.gives_nil _, hnone⟩
  | push _ _ => exact ⟨[], declaredLabels_push _, LabelSupply.gives_nil _, hnone⟩
  | pop _ _ hpop => exact ⟨[], declaredLabels_pop hpop, LabelSupply.gives_nil _, hnone⟩
  | inPlace hop hcode =>
      exact ⟨[], declaredLabels_operation hop hcode, LabelSupply.gives_nil _, hnone⟩
  | label | goto | ifGoto | ret => exact ⟨[], rfl, LabelSupply.gives_nil _, hnone⟩

end Blocks

section Steps

variable {options : Options} {names names' : Names} {entry : Entry} {block : Block}
  {messages : List Diagnostic} {emitted : List String}

/-- The label that a command declares is known from its line. -/
theorem Line.declares?_eq {l : Line} {ctx : Context} {command : Command}
    (hresult : l.parsed.result = .ok command) (h : ctx.function? = l.function?) :
    (command.declaration? options ctx).map Prod.snd = l.declares? options := by
  cases command with
  | label name =>
      simp only [Command.declaration?, Line.declares?, hresult, Option.map_some,
        Line.resolveLabel_eq_symbol options h]
  | _ => simp only [Command.declaration?, Line.declares?, hresult, Option.map_some, Option.map_none]

/-- Recording what a command declares keeps the supply. -/
theorem Command.isDeclared_declareIn (options : Options) (ctx : Context) (command : Command) :
    (command.declareIn options ctx).labels = ctx.labels ∧
      ∀ name, (command.declareIn options ctx).isDeclared name = true ↔
        name ∈ ((command.declaration? options ctx).map Prod.snd).toList ∨
          ctx.isDeclared name = true := by
  unfold declareIn
  cases command.declaration? options ctx with
  | none => simp
  | some declaration =>
      refine ⟨rfl, fun name => ?_⟩
      rw [Context.isDeclared_declare]
      simp

/-- The labels of a block: the one that its entry declares, and those that the
    supply gave out for it. All of them are recorded. -/
theorem Compiles.declares (h : Compiles options names entry block messages names') :
    ∃ minted, declaredLabels block.instructions = (entry.declares? options).toList ++ minted ∧
      names.labels.Gives minted names'.labels ∧
      ∀ name, names'.declared.contains name = true ↔
        name ∈ declaredLabels block.instructions ∨ names.declared.contains name = true := by
  cases h with
  | start hmint => exact ⟨_, rfl, Context.gives_of_mintReturn (by decide) hmint⟩
  | refused hresult =>
      rename_i l cause
      have hnone : l.declares? options = none := by simp only [Line.declares?, hresult]
      refine ⟨[], ?_, LabelSupply.gives_nil _, ?_⟩
      · rw [Entry.declares?, hnone]
        rfl
      · intro name
        show _ ↔ name ∈ [] ∨ _
        simp only [List.not_mem_nil, false_or]
  | lowered hresult hformed hlower =>
      rename_i l command code ctx
      have hplace := command.place_declareIn options (l.context names)
      rcases command.isDeclared_declareIn options (l.context names) with ⟨hlabels, hdeclared⟩
      rcases (lowers_of_lower hlower).declares hformed with ⟨minted, hcode, hgives, hrecorded⟩
      rw [Line.declares?_eq hresult hplace.2] at hcode
      rw [Line.declares?_eq hresult rfl] at hdeclared
      rw [hlabels] at hgives
      refine ⟨minted, hcode, hgives, ?_⟩
      intro name
      show ctx.isDeclared name = true ↔ name ∈ declaredLabels code ∨ _
      rw [hrecorded, hdeclared, hcode, List.mem_append, or_left_comm, or_assoc]
      rfl

end Steps

end HackVM
