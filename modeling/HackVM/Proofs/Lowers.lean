import HackVM.Proofs.Reading

/-!
# Cases of Lowering

What lowering can do, said once.

`Lowers` lists the commands with the code of each and the context that follows.
Five kinds of command need something of the context that may be missing, an
address or a label number, and the list says what was found. Everything that is
proved of lowered code goes through these cases.

## Main definitions

* `Operation.jump?`: The condition of a comparison.
* `Lowers`: The code of each command.

## Theorems

* `lowers_of_lower`: Lowering does nothing else.
* `lower_of_wellFormed`: A command that was read is never refused.
* `Lowers.place`: Lowering stays in the unit, and in the function unless one
  begins.
* `Lowers.legible_or_static`, `Lowers.legible`: Code from names has names.
* `Lowers.isSome_statement?`: Code has no comments.
-/

namespace HackVM

open Instruction

/-- The condition under which a comparison holds, on the difference of its
    operands. -/
def Operation.jump? : Operation → Option Jump
  | .eq => some .jeq
  | .gt => some .jgt
  | .lt => some .jlt
  | _ => none

/-- The code of a command, and the context that follows. -/
inductive Lowers (options : Options) (ctx : Context) :
    Command → List Instruction → Context → Prop
  | push {segment : Segment} {index : Word} {access : Access} :
      Command.checkSegment segment index = .ok () →
      Access.ofSegment ctx segment index = .ok access →
      Lowers options ctx (.push segment index) access.push ctx
  | pop {segment : Segment} {index : Word} {access : Access} {code : List Instruction} :
      Command.checkSegment segment index = .ok () →
      Access.ofSegment ctx segment index = .ok access → access.pop = .ok code →
      Lowers options ctx (.pop segment index) code ctx
  | inPlace {op : Operation} {code : List Instruction} : op.jump? = none →
      Lowering.operation ctx op = .ok (code, ctx) →
      Lowers options ctx (.arithmetic op) code ctx
  | compare {op : Operation} {jump : Jump} {labels : ComparisonLabels} {ctx' : Context} :
      op.jump? = some jump → ctx.mintComparison op = .ok (labels, ctx') →
      Lowers options ctx (.arithmetic op) (Lowering.compare jump labels) ctx'
  | label (name : String) :
      Lowers options ctx (.label name) [.label (ctx.resolveLabel options.scopeLabels name)] ctx
  | goto (name : String) :
      Lowers options ctx (.goto name)
        [atSymbol (ctx.resolveLabel options.scopeLabels name), jumpAlways] ctx
  | ifGoto (name : String) :
      Lowers options ctx (.ifGoto name) (popToD ++
        [atSymbol (ctx.resolveLabel options.scopeLabels name), .branch .d .jne]) ctx
  | function (name : String) (locals : Word) :
      Lowers options ctx (.function name locals) (Lowering.enter name locals)
        (ctx.enterFunction name)
  | call {name label : String} {args : Word} {ctx' : Context} :
      ctx.mintReturn name = .ok (label, ctx') →
      Lowers options ctx (.call name args) (Lowering.call name args label) ctx'
  | ret : Lowers options ctx .ret Lowering.leave ctx

section Cases

variable {options : Options} {ctx ctx' : Context} {command : Command} {code : List Instruction}

/-- Lowering does nothing else. -/
theorem lowers_of_lower (h : lower options ctx command = .ok (.ok code, ctx')) :
    Lowers options ctx command code ctx' := by
  rcases lower_eq_ok_ok_iff.mp h with ⟨hbounds, hcode⟩
  cases command with
  | push segment index =>
      rcases map_eq_ok_iff.mp hcode with ⟨access, haccess, heq⟩
      cases heq
      exact Lowers.push hbounds haccess
  | pop segment index =>
      rcases map_eq_ok_iff.mp hcode with ⟨access, haccess, heq⟩
      rcases Prod.mk.inj heq with ⟨hpop, rfl⟩
      exact Lowers.pop hbounds haccess hpop
  | arithmetic op =>
      rcases map_eq_ok_iff.mp hcode with ⟨⟨found, after⟩, hop, heq⟩
      cases heq
      cases op with
      | eq | gt | lt =>
          rcases map_eq_ok_iff.mp hop with ⟨⟨labels, after⟩, hmint, heq⟩
          cases heq
          exact Lowers.compare rfl hmint
      | _ =>
          cases hop
          exact Lowers.inPlace rfl rfl
  | label name =>
      cases hcode
      exact Lowers.label name
  | goto name =>
      cases hcode
      exact Lowers.goto name
  | ifGoto name =>
      cases hcode
      exact Lowers.ifGoto name
  | function name locals =>
      cases hcode
      exact Lowers.function name locals
  | call name args =>
      rcases map_eq_ok_iff.mp hcode with ⟨⟨label, after⟩, hmint, heq⟩
      cases heq
      exact Lowers.call hmint
  | ret =>
      cases hcode
      exact Lowers.ret

/-- A command that was read is never refused. -/
theorem lower_of_wellFormed {body : Except CommandError (List Instruction)}
    (hformed : command.WellFormed) (h : lower options ctx command = .ok (body, ctx')) :
    ∃ code, body = .ok code := by
  unfold lower at h
  rw [hformed.bounds] at h
  simp only [Lowering.bounded] at h
  cases command with
  | push segment index =>
      rcases map_eq_ok_iff.mp h with ⟨access, -, heq⟩
      cases heq
      exact ⟨_, rfl⟩
  | pop segment index =>
      rcases map_eq_ok_iff.mp h with ⟨access, haccess, heq⟩
      rcases Prod.mk.inj heq with ⟨rfl, -⟩
      cases segment with
      | constant => exact absurd rfl (hformed.place index)
      | temp =>
          rw [Access.ofSegment] at haccess
          split at haccess
          · cases haccess
            exact ⟨_, rfl⟩
          · cases haccess
      | _ =>
          cases haccess
          exact ⟨_, rfl⟩
  | arithmetic op =>
      rcases map_eq_ok_iff.mp h with ⟨⟨found, after⟩, -, heq⟩
      cases heq
      exact ⟨_, rfl⟩
  | call name args =>
      rcases map_eq_ok_iff.mp h with ⟨⟨label, after⟩, -, heq⟩
      cases heq
      exact ⟨_, rfl⟩
  | _ =>
      cases h
      exact ⟨_, rfl⟩

theorem Context.place_of_mintReturn {callee label : String}
    (h : ctx.mintReturn callee = .ok (label, ctx')) :
    ctx'.unit = ctx.unit ∧ ctx'.function? = ctx.function? := by
  rcases map_eq_ok_iff.mp h with ⟨⟨minted, supply⟩, -, heq⟩
  cases heq
  exact ⟨rfl, rfl⟩

/-- Lowering stays in the unit, and in the function unless one begins. -/
theorem Lowers.place (h : Lowers options ctx command code ctx') :
    ctx'.unit = ctx.unit ∧ ctx'.function? = command.begins?.or ctx.function? := by
  cases h with
  | compare _ hmint =>
      rcases map_eq_ok_iff.mp hmint with ⟨⟨labels, supply⟩, -, heq⟩
      cases heq
      exact ⟨rfl, rfl⟩
  | call hmint => exact Context.place_of_mintReturn hmint
  | _ => exact ⟨rfl, rfl⟩

end Cases

section Names

theorem isName_append {name : String} {rest : String} (h : isName name = true)
    (hrest : ∀ c ∈ rest.toList, isNameChar c = true) : isName (name ++ rest) = true := by
  unfold isName at h ⊢
  rw [String.toList_append]
  cases hname : name.toList with
  | nil =>
      rw [hname] at h
      cases h
  | cons c cs =>
      rw [hname] at h
      simp only [List.cons_append, Bool.and_eq_true, List.all_append, List.all_eq_true] at h ⊢
      exact ⟨h.1, h.2, hrest⟩

variable {ctx ctx' : Context}

theorem Context.isName_staticSymbol (hunit : isName ctx.unit = true) (index : Word) :
    isName (ctx.staticSymbol index) = true := by
  refine isName_append (isName_append hunit (List.all_eq_true.mp (by decide))) ?_
  intro c hc
  exact isNameChar_of_mem_repr hc

theorem Context.isName_resolveLabel {name : String} (perFunction : Bool)
    (hfunction : ∀ function, ctx.function? = some function → isName function = true)
    (hname : isName name = true) : isName (ctx.resolveLabel perFunction name) = true := by
  unfold Context.resolveLabel
  split
  · next function hsome =>
      refine isName_append (isName_append (hfunction function hsome)
        (List.all_eq_true.mp (by decide))) ?_
      intro c hc
      exact isNameChar_of_isName hname hc
  · exact hname

theorem Context.isName_mintReturn {callee label : String} (hcallee : isName callee = true)
    (h : ctx.mintReturn callee = .ok (label, ctx')) : isName label = true := by
  rcases map_eq_ok_iff.mp h with ⟨⟨minted, supply⟩, hmint, heq⟩
  rcases map_eq_ok_iff.mp hmint with ⟨following, -, heq'⟩
  cases heq
  cases heq'
  refine isName_append (isName_append hcallee (List.all_eq_true.mp (by decide))) ?_
  intro c hc
  exact isNameChar_of_mem_repr hc

theorem Context.isName_mintComparison {op : Operation} {labels : ComparisonLabels}
    (h : ctx.mintComparison op = .ok (labels, ctx')) :
    isName labels.ifTrue = true ∧ isName labels.finish = true := by
  rcases map_eq_ok_iff.mp h with ⟨⟨minted, supply⟩, hmint, heq⟩
  rcases map_eq_ok_iff.mp hmint with ⟨following, -, heq'⟩
  cases heq
  cases heq'
  constructor
  · refine isName_append (by cases op <;> decide) ?_
    intro c hc
    exact isNameChar_of_mem_repr hc
  · refine isName_append (by cases op <;> decide) ?_
    intro c hc
    exact isNameChar_of_mem_repr hc

end Names

section Legibility

variable {options : Options} {ctx ctx' : Context} {command : Command} {code : List Instruction}

/-- The names of the machine that code uses are names. -/
theorem isName_machine : isName "SP" = true ∧ isName "LCL" = true ∧ isName "ARG" = true ∧
    isName "THIS" = true ∧ isName "THAT" = true ∧ isName "R13" = true ∧ isName "R14" = true := by
  decide

theorem legible_call {name label : String} (args : Word) (hname : isName name = true)
    (hlabel : isName label = true) : ∀ i ∈ Lowering.call name args label, i.Legible := by
  simp [Lowering.call, pushD, savedPointers, Lowering.savePointer, atSymbol, assign, atConstant,
    jumpAlways, branch, Legible, hname, hlabel, isName_machine]

theorem legible_compare {jump : Jump} {labels : ComparisonLabels}
    (htrue : isName labels.ifTrue = true) (hfinish : isName labels.finish = true) :
    ∀ i ∈ Lowering.compare jump labels, i.Legible := by
  simp [Lowering.compare, popToD, addressTop, atSymbol, assign, jumpAlways, branch, Legible,
    htrue, hfinish, isName_machine]

theorem mem_pushZero_of_mem_flatten {count : Nat} {i : Instruction}
    (h : i ∈ (List.replicate count Lowering.pushZero).flatten) : i ∈ Lowering.pushZero := by
  rcases List.mem_flatten.mp h with ⟨zero, hzero, hi⟩
  rwa [List.eq_of_mem_replicate hzero] at hi

theorem legible_enter {name : String} (locals : Word) (hname : isName name = true) :
    ∀ i ∈ Lowering.enter name locals, i.Legible := by
  have hzero : ∀ i ∈ Lowering.pushZero, i.Legible := by decide
  intro i hi
  rcases List.mem_cons.mp hi with rfl | hi
  · exact hname
  · exact hzero i (mem_pushZero_of_mem_flatten hi)

/-- The name that an access goes through, if there is one, is a name. -/
def Access.Named : Access → Prop
  | .static name | .indirect name _ | .register name => isName name = true
  | .immediate _ | .direct _ => True

/-- A segment is reached through a name, whatever the unit is called, unless it
    holds static variables. -/
theorem Access.named_or_static {segment : Segment} {index : Word} {access : Access}
    (h : Access.ofSegment ctx segment index = .ok access) :
    access.Named ∨ access = .static (ctx.staticSymbol index) := by
  cases segment with
  | temp =>
      rw [Access.ofSegment] at h
      split at h
      · cases h
        exact Or.inl trivial
      · cases h
  | static =>
      cases h
      exact Or.inr rfl
  | pointer =>
      cases h
      left
      show isName (if index = 0 then "THIS" else "THAT") = true
      split <;> decide
  | constant =>
      cases h
      exact Or.inl trivial
  | locals | arguments | this | that =>
      cases h
      left
      show isName _ = true
      decide

theorem Access.legible_push {access : Access} (h : access.Named) :
    ∀ i ∈ access.push, i.Legible := by
  cases access <;>
    simp only [Named] at h <;>
    simp [push, pushD, atSymbol, atConstant, assign, Legible, isName_machine, h]

theorem Access.legible_pop {access : Access} (h : access.Named) (hcode : access.pop = .ok code) :
    ∀ i ∈ code, i.Legible := by
  cases access with
  | immediate value => cases hcode
  | _ =>
      cases hcode
      simp only [Named] at h
      simp [popToD, atSymbol, atConstant, assign, Legible, isName_machine, h]

/-- The code of a command with names, in a function with a name, has names, and
    only the load of a static variable shows what the unit is called. -/
theorem Lowers.legible_or_static (h : Lowers options ctx command code ctx')
    (hnames : ∀ name, command.name? = some name → isName name = true)
    (hfunction : ∀ name, ctx.function? = some name → isName name = true) :
    ∀ i ∈ code, i.Legible ∨ ∃ index, i = atSymbol (ctx.staticSymbol index) := by
  intro i hi
  cases h with
  | push _ haccess =>
      rcases Access.named_or_static haccess with hnamed | rfl
      · exact Or.inl (Access.legible_push hnamed i hi)
      · have hrest : ∀ i ∈ assign .d (.only .m) :: pushD, i.Legible := by decide
        rcases List.mem_cons.mp hi with rfl | hi
        · exact Or.inr ⟨_, rfl⟩
        · exact Or.inl (hrest i hi)
  | pop _ haccess hpop =>
      rcases Access.named_or_static haccess with hnamed | rfl
      · exact Or.inl (Access.legible_pop hnamed hpop i hi)
      · have hrest : ∀ i ∈ popToD ++ [assign .m .d], i.Legible := by decide
        cases hpop
        simp only [List.mem_append, List.mem_cons, List.not_mem_nil, or_false] at hi hrest
        rcases hi with hi | rfl | hi
        · exact Or.inl (hrest i (Or.inl hi))
        · exact Or.inr ⟨_, rfl⟩
        · exact Or.inl (hrest i (Or.inr hi))
  | inPlace hop hcode =>
      rename_i op
      left
      revert i
      cases op with
      | eq | gt | lt => cases hop
      | _ =>
          cases hcode
          decide
  | compare _ hmint =>
      rcases Context.isName_mintComparison hmint with ⟨htrue, hfinish⟩
      exact Or.inl (legible_compare htrue hfinish i hi)
  | label name =>
      have hname := Context.isName_resolveLabel options.scopeLabels hfunction (hnames name rfl)
      left
      revert i
      simp [Legible, hname]
  | goto name =>
      have hname := Context.isName_resolveLabel options.scopeLabels hfunction (hnames name rfl)
      left
      revert i
      simp [atSymbol, jumpAlways, branch, Legible, hname]
  | ifGoto name =>
      have hname := Context.isName_resolveLabel options.scopeLabels hfunction (hnames name rfl)
      left
      revert i
      simp [popToD, atSymbol, assign, branch, Legible, hname, isName_machine]
  | function name locals => exact Or.inl (legible_enter locals (hnames name rfl) i hi)
  | call hmint =>
      have hname := hnames _ rfl
      exact Or.inl (legible_call _ hname (Context.isName_mintReturn hname hmint) i hi)
  | ret =>
      left
      revert i
      decide

/-- The code of a command with names, in a place with names, has names. -/
theorem Lowers.legible (h : Lowers options ctx command code ctx')
    (hnames : ∀ name, command.name? = some name → isName name = true)
    (hunit : isName ctx.unit = true)
    (hfunction : ∀ name, ctx.function? = some name → isName name = true) :
    ∀ i ∈ code, i.Legible := by
  intro i hi
  rcases h.legible_or_static hnames hfunction i hi with hlegible | ⟨index, rfl⟩
  · exact hlegible
  · exact Context.isName_staticSymbol hunit index

/-- Code has no comments. -/
theorem Lowers.isSome_statement? (h : Lowers options ctx command code ctx') :
    ∀ i ∈ code, i.statement?.isSome = true := by
  cases h with
  | push hbounds haccess =>
      rename_i access
      cases access <;> exact List.all_eq_true.mp rfl
  | pop hbounds haccess hpop =>
      rename_i access
      cases access with
      | immediate value => cases hpop
      | _ =>
          cases hpop
          exact List.all_eq_true.mp rfl
  | inPlace hop hcode =>
      rename_i op
      cases op with
      | eq | gt | lt => cases hop
      | _ =>
          cases hcode
          exact List.all_eq_true.mp rfl
  | function name locals =>
      have hzero : ∀ i ∈ Lowering.pushZero, i.statement?.isSome = true := by decide
      intro i hi
      rcases List.mem_cons.mp hi with rfl | hi
      · rfl
      · exact hzero i (mem_pushZero_of_mem_flatten hi)
  | _ => exact List.all_eq_true.mp rfl

end Legibility

end HackVM
