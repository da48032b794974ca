import HackVM.Proofs.Layout
import HackVM.Proofs.RoundTrip
import Mathlib.Data.List.Forall2

/-!
# Renaming Symbols

The code of an assembly text does not depend on the names in it.

Two texts that say the same up to their symbols have the same code, as long as
the symbols of one correspond to those of the other one by one. A name of the
machine must correspond to one with the same address, which in practice is the
name itself. Everything else the assembler finds out about a symbol is where it
stands: a label has the position of its declaration, and a variable the cell
that its first use comes to. If one of the texts is refused, so is the other.

The correspondence is a relation and not a function, because it only concerns
the symbols that occur. Renaming is symmetric, so every statement here is needed
in one direction only.

## Main definitions

* `Renaming`: Symbols correspond one by one, those of the machine to themselves.
* `Statement.Renamed`, `Instruction.Renamed`: The same up to symbols.

## Theorems

* `labelPosition?_renamed`: A label stays where it is.
* `variableNames_renamed`: Variables come in the same order.
* `symbolAddress?_renamed`: A symbol keeps its meaning under its new name.
* `code_eq_of_realizes`: Renamed statements have the same words.
* `length_variableNames_of_assemble`: There was a cell for every variable.
* `assemble_renamed`: Renamed texts have the same code, or none.
* `assemble_renamed_blocks`: The same for listings.
-/

namespace HackVM

/-- Symbols correspond one by one, and those of the machine to symbols with the
    same address. -/
structure Renaming (R : String → String → Prop) : Prop where
  unique : Relator.BiUnique R
  lookup : ∀ name name', R name name' →
    predefinedSymbols.lookup name = predefinedSymbols.lookup name'

/-- Two statements that are the same up to symbols, which correspond. -/
inductive Statement.Renamed (R : String → String → Prop) : Statement → Statement → Prop
  | label {name name' : String} : R name name' → Renamed R (.label name) (.label name')
  | number {operand : List Char} : Text.isNumeral operand = true →
      Renamed R (.load operand) (.load operand)
  | symbol {name name' : String} : isName name = true → isName name' = true → R name name' →
      Renamed R (.load name.toList) (.load name'.toList)
  | compute (code : List Char) : Renamed R (.compute code) (.compute code)

variable {R : String → String → Prop}

theorem Renaming.symm (h : Renaming R) : Renaming (flip R) := by
  refine ⟨⟨?_, ?_⟩, fun name name' hname => (h.lookup name' name hname).symm⟩
  · intro a b c hac hbc
    exact h.unique.2 hac hbc
  · intro a b c hab hac
    exact h.unique.1 hab hac

namespace Statement.Renamed

variable {st st' : Statement}

theorem symm (h : Renamed R st st') : Renamed (flip R) st' st := by
  cases h with
  | label hname => exact label hname
  | number hnumeral => exact number hnumeral
  | symbol hname hname' hR => exact symbol hname' hname hR
  | compute code => exact compute code

theorem isCode_eq (h : Renamed R st st') : st.isCode = st'.isCode := by
  cases h <;> rfl

theorem labelName? (h : Renamed R st st') : Option.Rel R st.labelName? st'.labelName? := by
  cases h with
  | label hname => exact Option.Rel.some hname
  | number _ => exact Option.Rel.none
  | symbol _ _ _ => exact Option.Rel.none
  | compute code => exact Option.Rel.none

theorem operandName?_of_isName {name : String} (h : isName name = true) :
    (load name.toList).operandName? = some name := by
  rw [operandName?_load (by rw [not_isNumeral_of_isName h]; exact Bool.false_ne_true),
    String.ofList_toList]

theorem operandName? (h : Renamed R st st') : Option.Rel R st.operandName? st'.operandName? := by
  cases h with
  | label _ => exact Option.Rel.none
  | number hnumeral =>
      simp only [Statement.operandName?, hnumeral, if_true]
      exact Option.Rel.none
  | symbol hname hname' hR =>
      rw [operandName?_of_isName hname, operandName?_of_isName hname']
      exact Option.Rel.some hR
  | compute code => exact Option.Rel.none

theorem readable (h : Renamed R st st') (hread : st.Readable) : st'.Readable := by
  cases h with
  | label _ => trivial
  | number _ => exact hread
  | symbol _ hname' _ =>
      refine ⟨ne_nil_of_isName hname', fun hnumeral => ?_⟩
      rw [not_isNumeral_of_isName hname'] at hnumeral
      cases hnumeral
  | compute code => exact hread

end Statement.Renamed

/-- Everything on the right corresponds to something on the left. -/
theorem exists_mem_of_forall₂ {α β : Type} {P : α → β → Prop} {as : List α} {bs : List β} {b : β}
    (h : List.Forall₂ P as bs) (hb : b ∈ bs) : ∃ a ∈ as, P a b := by
  induction h with
  | nil => cases hb
  | cons hhead _ ih =>
      rcases List.mem_cons.mp hb with rfl | hb
      · exact ⟨_, List.mem_cons_self, hhead⟩
      · rcases ih hb with ⟨a, ha, hrel⟩
        exact ⟨a, List.mem_cons_of_mem _ ha, hrel⟩

section Statements

variable {ss ss' : List Statement} {name name' : String}

theorem labelNames_renamed (h : List.Forall₂ (Statement.Renamed R) ss ss') :
    List.Forall₂ R (labelNames ss) (labelNames ss') :=
  List.rel_filterMap (fun _ _ hst => hst.labelName?) h

theorem codeCount_renamed (h : List.Forall₂ (Statement.Renamed R) ss ss') :
    codeCount ss = codeCount ss' := by
  induction h with
  | nil => rfl
  | cons hst _ ih => rw [codeCount_cons, codeCount_cons, ih, hst.isCode_eq]

/-- A label stays where it is. -/
theorem labelPosition?_renamed (hR : Renaming R)
    (h : List.Forall₂ (Statement.Renamed R) ss ss') (hname : R name name') :
    labelPosition? name ss = labelPosition? name' ss' := by
  induction h with
  | nil => rfl
  | cons hst _ ih =>
      cases hst with
      | label hother =>
          have heq := Relator.rel_eq hR.unique hother hname
          simp only [labelPosition?, heq, ih]
      | number _ => simp only [labelPosition?, ih]
      | symbol _ _ _ => simp only [labelPosition?, ih]
      | compute code => simp only [labelPosition?, ih]

/-- Dropping repetitions keeps a correspondence that is one by one. -/
theorem forall₂_eraseDups (hR : Relator.BiUnique R) {names names' : List String}
    (h : List.Forall₂ R names names') : List.Forall₂ R names.eraseDups names'.eraseDups := by
  -- Not on the list itself: what is left behind its head is shorter, but no tail.
  induction hlength : names.length using Nat.strong_induction_on generalizing names names' with
  | _ n ih =>
      cases h with
      | nil => exact List.Forall₂.nil
      | cons hhead htail =>
          rename_i first first' rest rest'
          rw [List.eraseDups_cons, List.eraseDups_cons]
          have hrest : List.Forall₂ R (rest.filter fun other => !other == first)
              (rest'.filter fun other => !other == first') := by
            refine List.rel_filter (fun other other' hother => ?_) htail
            simp only [Bool.not_eq_true', beq_eq_false_iff_ne, ne_eq,
              Relator.rel_eq hR hother hhead]
          refine List.Forall₂.cons hhead (ih _ ?_ hrest rfl)
          have hle := List.length_filter_le (fun other => !other == first) rest
          rw [← hlength, List.length_cons]
          omega

/-- Variables correspond in the order of their first use. -/
theorem variableNames_renamed (hR : Renaming R)
    (h : List.Forall₂ (Statement.Renamed R) ss ss') :
    List.Forall₂ R (variableNames ss) (variableNames ss') := by
  refine forall₂_eraseDups hR.unique (List.rel_filter (fun name name' hname => ?_)
    (List.rel_filterMap (fun _ _ hst => hst.operandName?) h))
  have hlabel := List.rel_mem hR.unique hname (labelNames_renamed h)
  simp only [hR.lookup name name' hname, Bool.and_eq_true, Bool.not_eq_true',
    List.contains_eq_mem, decide_eq_false_iff_not, hlabel]

theorem idxOf?_renamed (hR : Relator.BiUnique R) {names names' : List String}
    (h : List.Forall₂ R names names') (hname : R name name') :
    names.idxOf? name = names'.idxOf? name' := by
  induction h with
  | nil => rfl
  | cons hhead _ ih =>
      simp only [List.idxOf?_cons, beq_iff_eq, Relator.rel_eq hR hhead hname, ih]

/-- A symbol keeps its meaning under its new name. -/
theorem symbolAddress?_renamed (hR : Renaming R)
    (h : List.Forall₂ (Statement.Renamed R) ss ss') (hname : R name name') :
    symbolAddress? ss name = symbolAddress? ss' name' := by
  rw [symbolAddress?, symbolAddress?, hR.lookup name name' hname,
    labelPosition?_renamed hR h hname,
    idxOf?_renamed hR.unique (variableNames_renamed hR h) hname]

/-- Renamed statements have the same words. -/
theorem code_eq_of_realizes (hR : Renaming R) {image image' : Image}
    (h : List.Forall₂ (Statement.Renamed R) ss ss') (himage : image.Realizes ss)
    (himage' : image'.Realizes ss') : image.code = image'.code := by
  refine Array.toList_inj.mp ?_
  rw [himage.code, himage'.code, ← List.forall₂_eq_eq_eq]
  -- Statement by statement, and only the load of a symbol looks anything up.
  refine List.rel_filterMap (fun st st' hst => ?_) h
  have hword : st.word? image.symbols = st'.word? image'.symbols := by
    cases hst with
    | label _ => rfl
    | number hnumeral => simp only [Statement.word?, hnumeral, if_true]
    | symbol hname hname' hname'' =>
        simp only [Statement.word?, not_isNumeral_of_isName hname,
          not_isNumeral_of_isName hname', Bool.false_eq_true, if_false, String.ofList_toList,
          himage.find?, himage'.find?, symbolAddress?_renamed hR h hname'']
    | compute code => rfl
  rw [hword]
  cases st'.word? image'.symbols with
  | none => exact Option.Rel.none
  | some w => exact Option.Rel.some rfl

end Statements

section Texts

variable {text text' : String}

/-- The second pass found a cell for every variable. -/
theorem length_variableNames_of_assemble {image : Image} (h : assemble text = .ok image) :
    (variableNames ((statements text).map (·.statement))).length < 65520 := by
  rcases bind_eq_ok_iff.mp h with ⟨symbols, hlabels, hresolve⟩
  rcases map_eq_ok_iff.mp hlabels with ⟨first, hfirst, rfl⟩
  rcases map_eq_ok_iff.mp hresolve with ⟨second, hsecond, rfl⟩
  rcases resolve_of_foldlM hsecond with ⟨-, hnext, -⟩
  have hbase : (Resolving.initial first.symbols).nextVariable.value = 16 := rfl
  have hsymbols : (Resolving.initial first.symbols).symbols = first.symbols := rfl
  rw [hbase, hsymbols, newNames_eq_variableNames (labels_of_initial hfirst).2.2.2] at hnext
  have hle := second.nextVariable.value_le
  omega

/-- A renamed text can be assembled if the text can, and has the same code. -/
theorem exists_assemble_of_renamed (hR : Renaming R)
    (h : List.Forall₂ (Statement.Renamed R) ((statements text).map (·.statement))
      ((statements text').map (·.statement))) {image : Image} (himage : assemble text = .ok image) :
    ∃ image', assemble text' = .ok image' ∧ image'.code = image.code := by
  have hrealizes := realizes_of_assemble himage
  have hlabels := labelNames_renamed h
  -- What the assembler asks of a text carries over, condition by condition.
  have hsucceeds : ∃ image', assemble text' = .ok image' := by
    refine assemble_succeeds rfl ((List.rel_nodup hR.unique hlabels).mp hrealizes.nodup) ?_ ?_ ?_ ?_
    · intro name' hname'
      rcases exists_mem_of_forall₂ hlabels hname' with ⟨name, hname, hrel⟩
      rw [← hR.lookup name name' hrel]
      exact hrealizes.new name hname
    · rw [← codeCount_renamed h]
      exact hrealizes.count_le
    · intro st' hst'
      rcases exists_mem_of_forall₂ h hst' with ⟨st, hst, hrenamed⟩
      exact hrenamed.readable (hrealizes.readable st hst)
    · rw [← (variableNames_renamed hR h).length_eq]
      exact length_variableNames_of_assemble himage
  rcases hsucceeds with ⟨image', himage'⟩
  exact ⟨image', himage', (code_eq_of_realizes hR h hrealizes (realizes_of_assemble himage')).symm⟩

/-- Renamed texts have the same code, or none has any. -/
theorem assemble_renamed (hR : Renaming R)
    (h : List.Forall₂ (Statement.Renamed R) ((statements text).map (·.statement))
      ((statements text').map (·.statement))) :
    (assemble text).toOption.map Image.code = (assemble text').toOption.map Image.code := by
  have hback : List.Forall₂ (Statement.Renamed (flip R)) ((statements text').map (·.statement))
      ((statements text).map (·.statement)) :=
    List.Forall₂.flip (h.imp fun _ _ hst => hst.symm)
  cases himage : assemble text with
  | ok image =>
      rcases exists_assemble_of_renamed hR h himage with ⟨image', himage', hcode⟩
      rw [himage']
      exact congrArg some hcode.symm
  | error cause =>
      cases himage' : assemble text' with
      | error cause' => rfl
      | ok image' =>
          -- Renamed back, the first text would have an image, too.
          rcases exists_assemble_of_renamed hR.symm hback himage' with ⟨image, hok, -⟩
          rw [hok] at himage
          cases himage

end Texts

/-- Two instructions that are the same up to symbols, which correspond. -/
inductive Instruction.Renamed (R : String → String → Prop) : Instruction → Instruction → Prop
  | constant (value : Word) : Renamed R (.load (.constant value)) (.load (.constant value))
  | symbol {name name' : String} : R name name' →
      Renamed R (.load (.symbol name)) (.load (.symbol name'))
  | compute (c : Computation) : Renamed R (.compute c) (.compute c)
  | label {name name' : String} : R name name' → Renamed R (.label name) (.label name')
  | comment (text text' : String) : Renamed R (.comment text) (.comment text')

/-- Renamed instructions make renamed statements. -/
theorem Instruction.Renamed.statement? {i i' : Instruction} (h : Renamed R i i')
    (hlegible : i.Legible) (hlegible' : i'.Legible) :
    Option.Rel (Statement.Renamed R) i.statement? i'.statement? := by
  cases h with
  | constant value => exact Option.Rel.some (.number (Text.isNumeral_repr _))
  | symbol hname => exact Option.Rel.some (.symbol hlegible hlegible' hname)
  | compute c => exact Option.Rel.some (.compute _)
  | label hname => exact Option.Rel.some (.label hname)
  | comment text text' => exact Option.Rel.none

theorem statements_renamed {code code' : List Instruction}
    (h : List.Forall₂ (Instruction.Renamed R) code code') (hlegible : ∀ i ∈ code, i.Legible)
    (hlegible' : ∀ i ∈ code', i.Legible) :
    List.Forall₂ (Statement.Renamed R) (code.filterMap Instruction.statement?)
      (code'.filterMap Instruction.statement?) := by
  induction h with
  | nil => exact List.Forall₂.nil
  | cons hi _ ih =>
      rw [List.forall_mem_cons] at hlegible hlegible'
      have hrest := ih hlegible.2 hlegible'.2
      have hhead := hi.statement? hlegible.1 hlegible'.1
      -- Comments make no statement, on neither side.
      rw [List.filterMap_cons, List.filterMap_cons]
      revert hhead
      generalize Instruction.statement? _ = st, Instruction.statement? _ = st'
      intro hhead
      cases hhead with
      | none => exact hrest
      | some hst => exact List.Forall₂.cons hst hrest

/-- Listings of renamed instructions have the same code, or none has any. -/
theorem assemble_renamed_blocks (hR : Renaming R) (echo echo' : Bool) {blocks blocks' : List Block}
    (hprintable : ∀ block ∈ blocks, block.Printable)
    (hprintable' : ∀ block ∈ blocks', block.Printable)
    (h : List.Forall₂ (Instruction.Renamed R) (blockCode blocks) (blockCode blocks')) :
    (assemble (renderText echo blocks)).toOption.map Image.code =
      (assemble (renderText echo' blocks')).toOption.map Image.code := by
  refine assemble_renamed hR ?_
  rw [statements_renderText echo hprintable, statements_renderText echo' hprintable']
  exact statements_renamed h (legible_blockCode hprintable) (legible_blockCode hprintable')

end HackVM
