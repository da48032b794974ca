import HackVM.Proofs.Labels
import HackVM.Proofs.Renaming

/-!
# Two Compilations Side by Side

The same entries, compiled twice, give the same code up to symbols.

The two compilations may differ in their options and in the names they start
from. Neither has a say in which instructions an entry becomes, only in the
symbols of labels. So if it is known which symbols correspond, the two pieces of
code do, too. This comes in two halves. Whether the labels that are declared
correspond is a matter of the two label supplies, and goes step by step along
both compilations. Whether the code corresponds is then a matter of each block by
itself.

## Main definitions

* `machineNames`: The names of the machine that code uses.
* `Line.static?`, `Entry.static?`: The static variable that is used.
* `LabelSupply.Paired`: Supplies that give out labels that correspond.
* `LabelsCorrespond`: Blocks with labels that correspond.

## Theorems

* `Compiles.labels_paired`, `Trace.labels_paired`: Supplies that are paired stay
  paired, and the labels of both compilations correspond.
* `Trace.declares_paired`: Labels that lines declare correspond.
* `Lowers.renamed`: The code of a command is the same up to symbols.
* `Trace.renamed`: So is the code of all entries.
-/

namespace HackVM

open Instruction

/-- The names of the machine that code uses. -/
def machineNames : List String :=
  ["SP", "LCL", "ARG", "THIS", "THAT", "R13", "R14"]

/-- The symbol of the static variable that a line uses. -/
def Line.static? (l : Line) : Option String :=
  match l.parsed.result with
  | .ok (.push .static index) | .ok (.pop .static index) => some (l.staticSymbol index)
  | _ => none

/-- The symbol that an instruction loads or declares. -/
def Instruction.name? : Instruction → Option String
  | .load (.symbol name) | .label name => some name
  | _ => none

/-- The symbol that an access goes through. -/
def Access.name? : Access → Option String
  | .static name | .indirect name _ | .register name => some name
  | .immediate _ | .direct _ => none

/-- The symbol of the static variable that an entry uses. -/
def Entry.static? : Entry → Option String
  | .start _ => none
  | .line l => l.static?

/-- Label supplies that are related give out labels that correspond, and are
    related afterwards. -/
structure LabelSupply.Paired (Q : LabelSupply → LabelSupply → Prop)
    (R : String → String → Prop) : Prop where
  comparison : ∀ {supply supply' after after' : LabelSupply} {op : Operation} {jump : Jump}
    {labels labels' : ComparisonLabels}, Q supply supply' → op.jump? = some jump →
    supply.comparison op = .ok (labels, after) → supply'.comparison op = .ok (labels', after') →
    (R labels.ifTrue labels'.ifTrue ∧ R labels.finish labels'.finish) ∧ Q after after'
  returnAddress : ∀ {supply supply' after after' : LabelSupply} {callee label label' : String},
    Q supply supply' → isName callee = true →
    supply.returnAddress callee = .ok (label, after) →
    supply'.returnAddress callee = .ok (label', after') → R label label' ∧ Q after after'

/-- The labels that two lists of blocks declare correspond, block by block. -/
def LabelsCorrespond (R : String → String → Prop) : List Block → List Block → Prop :=
  List.Forall₂ fun block block' =>
    List.Forall₂ R (declaredLabels block.instructions) (declaredLabels block'.instructions)

section Labels

variable {Q : LabelSupply → LabelSupply → Prop} {R : String → String → Prop}
  {options options' : Options}

/-- The labels of the code of a command correspond. -/
theorem Lowers.labels_paired {ctx ctx' after after' : Context} {command : Command}
    {code code' : List Instruction} (hpaired : LabelSupply.Paired Q R)
    (h : Lowers options ctx command code after) (h' : Lowers options' ctx' command code' after')
    (hformed : command.WellFormed) (hQ : Q ctx.labels ctx'.labels)
    (hdeclares : ∀ name ∈ (command.declaration? options ctx).map Prod.snd,
      ∀ name' ∈ (command.declaration? options' ctx').map Prod.snd, R name name') :
    List.Forall₂ R (declaredLabels code) (declaredLabels code') ∧ Q after.labels after'.labels := by
  -- Only comparisons and calls take labels from the supplies.
  cases h with
  | compare hop hmint =>
      cases h' with
      | inPlace hop' hcode => rw [hop] at hop'; cases hop'
      | compare hop' hmint' =>
          rcases hpaired.comparison hQ hop (Context.comparison_of_mint hmint)
            (Context.comparison_of_mint hmint') with ⟨⟨htrue, hfinish⟩, hafter⟩
          exact ⟨.cons htrue (.cons hfinish .nil), hafter⟩
  | inPlace hop hcode =>
      cases h' with
      | compare hop' hmint => rw [hop] at hop'; cases hop'
      | inPlace hop' hcode' =>
          rw [declaredLabels_operation hop hcode, declaredLabels_operation hop' hcode']
          exact ⟨.nil, hQ⟩
  | call hmint =>
      cases h' with
      | call hmint' =>
          rcases hpaired.returnAddress hQ (hformed.names _ rfl) (Context.returnAddress_of_mint hmint)
            (Context.returnAddress_of_mint hmint') with ⟨hlabel, hafter⟩
          exact ⟨.cons hlabel .nil, hafter⟩
  | function name locals =>
      cases h'
      rw [declaredLabels_enter]
      exact ⟨.cons (hdeclares name rfl name rfl) .nil, hQ⟩
  | label name =>
      cases h'
      exact ⟨.cons (hdeclares _ rfl _ rfl) .nil, hQ⟩
  | push _ _ =>
      cases h'
      rw [declaredLabels_push, declaredLabels_push]
      exact ⟨.nil, hQ⟩
  | pop _ _ hpop =>
      cases h' with
      | pop _ _ hpop' =>
          rw [declaredLabels_pop hpop, declaredLabels_pop hpop']
          exact ⟨.nil, hQ⟩
  | goto | ifGoto | ret =>
      cases h'
      exact ⟨.nil, hQ⟩

/-- Supplies that are paired stay paired, and the labels of two blocks of one
    entry correspond. -/
theorem Compiles.labels_paired {names names' after after' : Names} {entry : Entry}
    {block block' : Block} {messages messages' : List Diagnostic}
    (hpaired : LabelSupply.Paired Q R) (h : Compiles options names entry block messages after)
    (h' : Compiles options' names' entry block' messages' after')
    (hQ : Q names.labels names'.labels)
    (hdeclares : ∀ name ∈ entry.declares? options, ∀ name' ∈ entry.declares? options',
      R name name') :
    List.Forall₂ R (declaredLabels block.instructions) (declaredLabels block'.instructions) ∧
      Q after.labels after'.labels := by
  cases h with
  | start hmint =>
      cases h' with
      | start hmint' =>
          have hentry : isName Lowering.entryFunction = true := by decide
          have hreturn := Context.returnAddress_of_mint hmint
          have hreturn' := Context.returnAddress_of_mint hmint'
          rcases hpaired.returnAddress hQ hentry hreturn hreturn' with ⟨hlabel, hafter⟩
          exact ⟨.cons hlabel .nil, hafter⟩
  | refused hresult =>
      cases h' with
      | refused hresult' => exact ⟨.nil, hQ⟩
      | lowered hresult' _ _ => rw [hresult] at hresult'; cases hresult'
  | lowered hresult hformed hlower =>
      rename_i l command code ctx
      cases h' with
      | refused hresult' => rw [hresult] at hresult'; cases hresult'
      | lowered hresult' hformed' hlower' =>
          rw [hresult] at hresult'
          cases hresult'
          -- Recording the label that the command declares keeps place and supply.
          have hplace := command.place_declareIn options (l.context names)
          have hplace' := command.place_declareIn options' (l.context names')
          have hlabels := (command.isDeclared_declareIn options (l.context names)).1
          have hlabels' := (command.isDeclared_declareIn options' (l.context names')).1
          refine (lowers_of_lower hlower).labels_paired hpaired (lowers_of_lower hlower') hformed
            (by rw [hlabels, hlabels']; exact hQ) ?_
          rw [Line.declares?_eq hresult hplace.2, Line.declares?_eq hresult hplace'.2]
          exact hdeclares

/-- The labels of two compilations of the same entries correspond, block by
    block. -/
theorem Trace.labels_paired {names names' after after' : Names} {entries : List Entry}
    {blocks blocks' : List Block} {messages messages' : List Diagnostic}
    (hpaired : LabelSupply.Paired Q R) (h : Trace options names entries blocks messages after)
    (h' : Trace options' names' entries blocks' messages' after')
    (hQ : Q names.labels names'.labels)
    (hdeclares : ∀ entry ∈ entries, ∀ name ∈ entry.declares? options,
      ∀ name' ∈ entry.declares? options', R name name') :
    LabelsCorrespond R blocks blocks' := by
  induction h generalizing names' blocks' messages' with
  | nil names =>
      cases h'
      exact .nil
  | cons hstep _ ih =>
      cases h' with
      | cons hstep' hrest' =>
          rw [List.forall_mem_cons] at hdeclares
          rcases hstep.labels_paired hpaired hstep' hQ hdeclares.1 with ⟨hlabels, hafter⟩
          exact .cons hlabels (ih hrest' hafter hdeclares.2)

/-- If the labels of all blocks correspond, so do those that lines declare. -/
theorem Trace.declares_paired {names names' after after' : Names} {entries : List Entry}
    {blocks blocks' : List Block} {messages messages' : List Diagnostic}
    (h : Trace options names entries blocks messages after)
    (h' : Trace options' names' entries blocks' messages' after')
    (hlabels : LabelsCorrespond R blocks blocks') :
    ∀ entry ∈ entries, ∀ name ∈ entry.declares? options, ∀ name' ∈ entry.declares? options',
      R name name' := by
  induction h generalizing names' blocks' messages' with
  | nil names => nofun
  | cons hstep _ ih =>
      cases h' with
      | cons hstep' hrest' =>
          cases hlabels with
          | cons hblock hblocks =>
              refine List.forall_mem_cons.mpr ⟨?_, ih hrest' hblocks⟩
              intro name hname name' hname'
              -- The label that an entry declares is the first of its block.
              rcases hstep.declares with ⟨minted, hfirst, -⟩
              rcases hstep'.declares with ⟨minted', hfirst', -⟩
              rw [Option.mem_def.mp hname] at hfirst
              rw [Option.mem_def.mp hname'] at hfirst'
              rw [hfirst, hfirst'] at hblock
              exact (List.forall₂_cons.mp hblock).1

end Labels

section Code

variable {R : String → String → Prop} {options options' : Options}

@[simp]
theorem renamed_atSymbol_iff {name name' : String} :
    Instruction.Renamed R (atSymbol name) (atSymbol name') ↔ R name name' :=
  ⟨fun | .symbol h => h, .symbol⟩

@[simp]
theorem renamed_label_iff {name name' : String} :
    Instruction.Renamed R (.label name) (.label name') ↔ R name name' :=
  ⟨fun | .label h => h, .label⟩

@[simp]
theorem renamed_compute (c : Computation) : Instruction.Renamed R (.compute c) (.compute c) :=
  .compute c

@[simp]
theorem renamed_atConstant (value : Word) :
    Instruction.Renamed R (atConstant value) (atConstant value) :=
  .constant value

/-- Code that uses names of the machine only is the same up to symbols. -/
theorem renamed_of_machine (hmachine : ∀ name ∈ machineNames, R name name)
    {code : List Instruction} (h : ∀ i ∈ code, ∀ name ∈ i.name?, name ∈ machineNames) :
    List.Forall₂ (Instruction.Renamed R) code code := by
  refine List.forall₂_same.mpr fun i hi => ?_
  have hname : ∀ name ∈ i.name?, R name name := fun name hname => hmachine name (h i hi name hname)
  cases i with
  | load address =>
      cases address with
      | constant value => exact .constant value
      | symbol name => exact .symbol (hname name rfl)
  | compute c => exact .compute c
  | label name => exact .label (hname name rfl)
  | comment text => exact .comment text text

section Fragments

variable {name name' label label' : String}

theorem renamed_call (hmachine : ∀ name ∈ machineNames, R name name) (args : Word)
    (hname : R name name') (hlabel : R label label') :
    List.Forall₂ (Instruction.Renamed R) (Lowering.call name args label)
      (Lowering.call name' args label') := by
  simp only [machineNames, List.forall_mem_cons] at hmachine
  simp [Lowering.call, pushD, savedPointers, Lowering.savePointer, assign, jumpAlways, branch,
    hname, hlabel, hmachine]

theorem renamed_bootstrap (hmachine : ∀ name ∈ machineNames, R name name)
    (hentry : R Lowering.entryFunction Lowering.entryFunction) (hlabel : R label label') :
    List.Forall₂ (Instruction.Renamed R) (Lowering.bootstrap label)
      (Lowering.bootstrap label') :=
  List.rel_append (renamed_of_machine hmachine (by decide)) (renamed_call hmachine 0 hentry hlabel)

theorem renamed_compare (hmachine : ∀ name ∈ machineNames, R name name) (jump : Jump)
    {labels labels' : ComparisonLabels} (htrue : R labels.ifTrue labels'.ifTrue)
    (hfinish : R labels.finish labels'.finish) :
    List.Forall₂ (Instruction.Renamed R) (Lowering.compare jump labels)
      (Lowering.compare jump labels') := by
  simp only [machineNames, List.forall_mem_cons] at hmachine
  simp [Lowering.compare, popToD, addressTop, assign, jumpAlways, branch, htrue, hfinish, hmachine]

theorem renamed_enter (hmachine : ∀ name ∈ machineNames, R name name) (locals : Word)
    (hname : R name name') :
    List.Forall₂ (Instruction.Renamed R) (Lowering.enter name locals)
      (Lowering.enter name' locals) := by
  have hzero : ∀ i ∈ Lowering.pushZero, ∀ name ∈ i.name?, name ∈ machineNames := by decide
  refine .cons (.label hname) (renamed_of_machine hmachine fun i hi => ?_)
  exact hzero i (mem_pushZero_of_mem_flatten hi)

theorem Access.renamed_push (hmachine : ∀ name ∈ machineNames, R name name) {access : Access}
    (hname : ∀ name ∈ access.name?, R name name) :
    List.Forall₂ (Instruction.Renamed R) access.push access.push := by
  simp only [machineNames, List.forall_mem_cons] at hmachine
  cases access <;>
    simp only [name?, Option.mem_some_iff, forall_eq'] at hname <;>
    simp [push, pushD, assign, hmachine, hname]

theorem Access.renamed_pop (hmachine : ∀ name ∈ machineNames, R name name) {access : Access}
    {code : List Instruction} (hname : ∀ name ∈ access.name?, R name name)
    (hcode : access.pop = .ok code) : List.Forall₂ (Instruction.Renamed R) code code := by
  simp only [machineNames, List.forall_mem_cons] at hmachine
  cases access with
  | immediate value => cases hcode
  | _ =>
      cases hcode
      simp only [name?, Option.mem_some_iff, forall_eq'] at hname
      simp [popToD, assign, hmachine, hname]

end Fragments

/-- A segment is reached through a name of the machine or a static variable. -/
theorem Access.name?_ofSegment {ctx : Context} {segment : Segment} {index : Word} {access : Access}
    (h : Access.ofSegment ctx segment index = .ok access) :
    ∀ name ∈ access.name?,
      name ∈ machineNames ∨ segment = .static ∧ name = ctx.staticSymbol index := by
  intro name hname
  cases segment with
  | temp =>
      rw [Access.ofSegment] at h
      split at h
      · cases h
        cases hname
      · cases h
  | static =>
      cases h
      cases hname
      exact Or.inr ⟨rfl, rfl⟩
  | pointer =>
      cases h
      cases hname
      left
      split <;> decide
  | constant =>
      cases h
      cases hname
  | locals | arguments | this | that =>
      cases h
      cases hname
      exact Or.inl (by decide)

/-- A segment is reached in the same way in every context of a unit. -/
theorem Access.ofSegment_eq {ctx ctx' : Context} (hunit : ctx'.unit = ctx.unit)
    (segment : Segment) (index : Word) :
    Access.ofSegment ctx' segment index = Access.ofSegment ctx segment index := by
  cases segment <;> simp only [Access.ofSegment, Context.staticSymbol, hunit]

/-- The code of a command is the same up to symbols. -/
theorem Lowers.renamed {ctx ctx' after after' : Context} {command : Command}
    {code code' : List Instruction} {l : Line} (hmachine : ∀ name ∈ machineNames, R name name)
    (hresult : l.parsed.result = .ok command)
    (h : Lowers options ctx command code after) (hunit : ctx.unit = l.unit)
    (hfunction : ctx.function? = l.function?)
    (h' : Lowers options' ctx' command code' after') (hunit' : ctx'.unit = l.unit)
    (hfunction' : ctx'.function? = l.function?) (hstatic : ∀ name ∈ l.static?, R name name)
    (htarget : ∀ name ∈ l.target? options, ∀ name' ∈ l.target? options', R name name')
    (hlabels : List.Forall₂ R (declaredLabels code) (declaredLabels code')) :
    List.Forall₂ (Instruction.Renamed R) code code' := by
  -- A segment is reached through the machine, or it is the line's static variable.
  have haccess : ∀ segment index access,
      (segment = .static → l.static? = some (l.staticSymbol index)) →
      Access.ofSegment ctx segment index = .ok access → ∀ name ∈ access.name?, R name name := by
    intro segment index access hline hsegment name hname
    rcases Access.name?_ofSegment hsegment name hname with hname | ⟨hseg, rfl⟩
    · exact hmachine name hname
    · rw [Line.staticSymbol_eq hunit]
      exact hstatic _ (hline hseg)
  cases h with
  | push _ hsegment =>
      cases h' with
      | push _ hsegment' =>
          rw [Access.ofSegment_eq (hunit'.trans hunit.symm), hsegment] at hsegment'
          cases hsegment'
          refine Access.renamed_push hmachine (haccess _ _ _ ?_ hsegment)
          rintro rfl
          simp only [Line.static?, hresult]
  | pop _ hsegment hpop =>
      cases h' with
      | pop _ hsegment' hpop' =>
          rw [Access.ofSegment_eq (hunit'.trans hunit.symm), hsegment] at hsegment'
          cases hsegment'
          rw [hpop] at hpop'
          cases hpop'
          refine Access.renamed_pop hmachine (haccess _ _ _ ?_ hsegment) hpop
          rintro rfl
          simp only [Line.static?, hresult]
  | inPlace hop hcode =>
      rename_i op
      cases h' with
      | compare hop' hmint => rw [hop] at hop'; cases hop'
      | inPlace hop' hcode' =>
          cases op with
          | eq | gt | lt => cases hop
          | _ =>
              cases hcode
              cases hcode'
              exact renamed_of_machine hmachine (by decide)
  | compare hop hmint =>
      cases h' with
      | inPlace hop' hcode => rw [hop] at hop'; cases hop'
      | compare hop' hmint' =>
          rw [hop] at hop'
          cases hop'
          rcases List.forall₂_cons.mp hlabels with ⟨htrue, hrest⟩
          exact renamed_compare hmachine _ htrue (List.forall₂_cons.mp hrest).1
  | label name =>
      cases h'
      exact .cons (.label (List.forall₂_cons.mp hlabels).1) .nil
  | goto name =>
      cases h'
      rw [Line.resolveLabel_eq_symbol options hfunction,
        Line.resolveLabel_eq_symbol options' hfunction']
      simp only [Line.target?, hresult] at htarget
      exact .cons (.symbol (htarget _ rfl _ rfl)) (.cons (.compute _) .nil)
  | ifGoto name =>
      cases h'
      rw [Line.resolveLabel_eq_symbol options hfunction,
        Line.resolveLabel_eq_symbol options' hfunction']
      simp only [Line.target?, hresult] at htarget
      exact List.rel_append (renamed_of_machine hmachine (by decide))
        (.cons (.symbol (htarget _ rfl _ rfl)) (.cons (.compute _) .nil))
  | function name locals =>
      cases h'
      rw [declaredLabels_enter] at hlabels
      exact renamed_enter hmachine locals (List.forall₂_cons.mp hlabels).1
  | call hmint =>
      cases h' with
      | call hmint' =>
          simp only [Line.target?, hresult] at htarget
          exact renamed_call hmachine _ (htarget _ rfl _ rfl) (List.forall₂_cons.mp hlabels).1
  | ret =>
      cases h'
      exact renamed_of_machine hmachine (by decide)

/-- Two blocks of one entry are the same up to symbols. -/
theorem Produces.renamed {entry : Entry} {block block' : Block}
    (hmachine : ∀ name ∈ machineNames, R name name) (h : Produces options entry block)
    (h' : Produces options' entry block') (hstatic : ∀ name ∈ entry.static?, R name name)
    (htarget : ∀ name ∈ entry.target? options, ∀ name' ∈ entry.target? options', R name name')
    (hlabels : List.Forall₂ R (declaredLabels block.instructions)
      (declaredLabels block'.instructions)) :
    List.Forall₂ (Instruction.Renamed R) block.instructions block'.instructions := by
  cases entry with
  | start unit =>
      rcases h.start_cases with ⟨label, hcode⟩
      rcases h'.start_cases with ⟨label', hcode'⟩
      rw [hcode, hcode'] at hlabels ⊢
      exact renamed_bootstrap hmachine (htarget _ rfl _ rfl) (List.forall₂_cons.mp hlabels).1
  | line l =>
      rcases h.line_cases with ⟨cause, hresult, hcode⟩ |
        ⟨command, code, ctx, after, hresult, hcode, hunit, hfunction, hlowers⟩
      · rcases h'.line_cases with ⟨cause', -, hcode'⟩ | ⟨command', -, -, -, hresult', -⟩
        · rw [hcode, hcode']
          exact .nil
        · rw [hresult] at hresult'
          cases hresult'
      · rcases h'.line_cases with ⟨cause', hresult', -⟩ |
          ⟨command', code', ctx', after', hresult', hcode', hunit', hfunction', hlowers'⟩
        · rw [hresult] at hresult'
          cases hresult'
        · rw [hresult] at hresult'
          cases hresult'
          rw [hcode, hcode'] at hlabels ⊢
          exact hlowers.renamed hmachine hresult hunit hfunction hlowers' hunit' hfunction' hstatic
            htarget hlabels

/-- Two compilations of the same entries give the same code up to symbols, if the
    symbols correspond. -/
theorem Trace.renamed {names names' after after' : Names} {entries : List Entry}
    {blocks blocks' : List Block} {messages messages' : List Diagnostic}
    (hmachine : ∀ name ∈ machineNames, R name name)
    (h : Trace options names entries blocks messages after)
    (h' : Trace options' names' entries blocks' messages' after')
    (hstatic : ∀ entry ∈ entries, ∀ name ∈ entry.static?, R name name)
    (htarget : ∀ entry ∈ entries, ∀ name ∈ entry.target? options,
      ∀ name' ∈ entry.target? options', R name name')
    (hlabels : LabelsCorrespond R blocks blocks') :
    List.Forall₂ (Instruction.Renamed R) (blockCode blocks) (blockCode blocks') := by
  -- Along both traces at once, since they are about the same entries.
  induction h generalizing names' blocks' messages' with
  | nil names =>
      cases h'
      exact .nil
  | cons hstep _ ih =>
      cases h' with
      | cons hstep' hrest' =>
          cases hlabels with
          | cons hblock hblocks =>
              rw [List.forall_mem_cons] at hstatic htarget
              rw [blockCode, List.flatMap_cons, blockCode, List.flatMap_cons]
              exact List.rel_append
                (Produces.renamed hmachine ⟨_, _, _, hstep⟩ ⟨_, _, _, hstep'⟩ hstatic.1 htarget.1
                  hblock)
                (ih hrest' hstatic.2 htarget.2 hblocks)

end Code

end HackVM
