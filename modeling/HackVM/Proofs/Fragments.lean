import HackVM.Proofs.Execution
import HackVM.Proofs.Lowers
import HackVM.Proofs.StackMachine
import Mathlib.Data.List.Forall2

/-!
# Meaning of Fragments

What the code of each command does to memory.

Every straight fragment of lowered code is executed here on a store of unknown
content, once and for all, and the result is a transformation of memory from
the definition of the stack machine. The equations are between outcomes, so
they also say that the two sides fault together, and with the same address.

Instructions are executed by rewriting: each has one equation that either
changes the store or passes through `Memory.fetch` and `Memory.put`, and a cell
whose number is known is always there. What register D holds after a fragment
matters to none of the fragments that follow, so most statements look only at
memory; `Store.view_run_append` puts such fragments together.

## Main definitions

* `Addressing`: The names of the machine stand for its cells.
* `Lowering.saveFrame`, `Lowering.restoreFrame`: Calls and returns without
  their jumps.

## Theorems

* `Store.run_assign_register`, `Store.run_assign_fetch`, `Store.run_assign_put`:
  Single computations.
* `Store.run_pushD`, `Store.run_popToD`: The stack.
* `Store.run_push`, `Store.run_pop`: Segments.
* `Store.run_operation`: Operations without a comparison.
* `Store.run_pushZeros`, `Store.run_saveFrame`, `Store.run_restoreFrame`:
  Functions, calls and returns.
-/

namespace HackVM

open Instruction

attribute [simp] Comp.eval Operand.eval

namespace Memory

variable {α : Type} (memory : Memory) (address : Word)

/-- The word that names a cell. -/
theorem toNat_ofNat_of_lt {cell : Nat} (h : cell < memorySize) :
    (BitVec.ofNat 16 cell).toNat = cell := by
  rw [BitVec.toNat_ofNat]
  exact Nat.mod_eq_of_lt (Nat.lt_trans h (by decide))

/-- A cell that exists can always be read. -/
@[simp]
theorem fetch_ofNat {cell : Nat} (h : cell < memorySize) :
    memory.fetch (BitVec.ofNat 16 cell) = pure (memory.read cell) := by
  rw [fetch, toNat_ofNat_of_lt h, if_pos h]
  rfl

/-- A cell that exists can always be changed. -/
@[simp]
theorem put_ofNat {cell : Nat} (h : cell < memorySize) (value : Word) :
    memory.put (BitVec.ofNat 16 cell) value = pure (memory.write cell value) := by
  rw [put, toNat_ofNat_of_lt h, if_pos h]
  rfl

/-- What a fetch that succeeds gives is the content of the cell. -/
theorem fetch_bind_read (f : Word → Except Fault α) :
    (memory.fetch address >>= fun _ => f (memory.read address.toNat)) =
      memory.fetch address >>= f := by
  unfold fetch
  split <;> rfl

/-- Fetching and putting need the same cell. -/
theorem fetch_bind_write (value : Word) (f : Memory → Except Fault α) :
    (memory.fetch address >>= fun _ => f (memory.write address.toNat value)) =
      memory.put address value >>= f := by
  unfold fetch put
  split <;> rfl

/-- Changing a cell in place. -/
theorem fetch_bind_put (f : Word → Word) :
    (memory.fetch address >>= fun value => memory.put address (f value)) =
      memory.put address (f (memory.read address.toNat)) := by
  unfold fetch put
  split <;> rfl

/-- A comparison looks at the sign of the difference. -/
theorem operate_of_jump? {op : Operation} {jump : Jump} (hop : op.jump? = some jump) :
    memory.operate op = memory.pop >>= fun top =>
      top.2.fetch (top.2.read 0 - 1) >>= fun x =>
        top.2.put (top.2.read 0 - 1) (Operation.truth (jump.taken (x - top.1))) := by
  cases op with
  | eq | gt | lt =>
      cases hop
      rfl
  | _ => cases hop

end Memory

namespace Lowering

/-- Take the difference of the two topmost words into D. -/
def subtract (labels : ComparisonLabels) : List Instruction :=
  popToD ++ [assign .a (.minusOne .a), assign .d (.minusD .m), atSymbol labels.ifTrue]

/-- Replace the topmost word by whether D satisfies the condition of the jump. -/
def choice (jump : Jump) (labels : ComparisonLabels) : List Instruction :=
  .branch .d jump :: (transform .zero ++ [atSymbol labels.finish]) ++
    jumpAlways :: .label labels.ifTrue :: (transform .negOne ++ [.label labels.finish])

theorem compare_eq (jump : Jump) (labels : ComparisonLabels) :
    compare jump labels = subtract labels ++ choice jump labels := by
  simp [compare, subtract, choice, transform]

/-- What a call saves is as long as the frame of the stack machine. -/
theorem frameSize_eq : frameSize = 5 := rfl

/-- Point the arguments below the saved words and the local variables above. -/
def setBases (args : Word) : List Instruction :=
  [atSymbol "SP", assign .d (.only .m), atConstant (args + frameSize), assign .d (.dMinus .a),
    atSymbol "ARG", assign .m .d,
    atSymbol "SP", assign .d (.only .m), atSymbol "LCL", assign .m .d]

/-- The part of a call in front of the jump. -/
def saveFrame (args : Word) (returnLabel : String) : List Instruction :=
  [atSymbol returnLabel, assign .d (.only .a)] ++ pushD ++
  savedPointers.flatMap savePointer ++ setBases args

theorem call_eq (name : String) (args : Word) (returnLabel : String) :
    call name args returnLabel =
      saveFrame args returnLabel ++ [atSymbol name, jumpAlways, .label returnLabel] := by
  simp [call, saveFrame, setBases]

/-- Read the return address, and put the result in its place. -/
def placeResult : List Instruction :=
  [atSymbol "LCL", assign .d (.only .m), atSymbol "R13", assign .m .d,
    atConstant frameSize, assign .a (.dMinus .a), assign .d (.only .m),
    atSymbol "R14", assign .m .d] ++
  popToD ++
  [atSymbol "ARG", assign .a (.only .m), assign .m .d,
    atSymbol "ARG", assign .d (.plusOne .m), atSymbol "SP", assign .m .d]

/-- The part of a return in front of the jump. -/
def restoreFrame : List Instruction :=
  placeResult ++
  savedPointers.reverse.flatMap restorePointer ++
  [atSymbol "R14", assign .a (.only .m)]

theorem leave_eq : leave = restoreFrame ++ [jumpAlways] := by
  simp [leave, restoreFrame, placeResult]

end Lowering

/-- The names of the machine stand for its cells. -/
structure Addressing (address : String → Word) : Prop where
  sp : address "SP" = 0
  lcl : address "LCL" = 1
  arg : address "ARG" = 2
  this : address "THIS" = 3
  that : address "THAT" = 4
  r13 : address "R13" = 13
  r14 : address "R14" = 14

/-- A symbol stands for a cell. -/
def IsCell (address : String → Word) (name : String) (cell : Nat) : Prop :=
  cell < memorySize ∧ address name = BitVec.ofNat 16 cell

namespace Store

/-- The registers that a destination names receive a word. -/
def receive (s : Store) (dest : Dest) (value : Word) : Store :=
  { s with
    a := if dest.writesA then value else s.a
    d := if dest.writesD then value else s.d }

section Instructions

variable {address : String → Word} (s : Store) (code : List Instruction) {dest : Dest}
  {comp : Comp}

@[simp]
theorem receive_m (value : Word) : s.receive .m value = s := rfl

@[simp]
theorem receive_a (value : Word) : s.receive .a value = { s with a := value } := rfl

@[simp]
theorem receive_d (value : Word) : s.receive .d value = { s with d := value } := rfl

@[simp]
theorem receive_am (value : Word) : s.receive .am value = { s with a := value } := rfl

@[simp]
theorem run_empty : run address [] s = pure s := rfl

@[simp]
theorem run_atSymbol (name : String) :
    run address (atSymbol name :: code) s = run address code { s with a := address name } := by
  rw [run_cons]
  rfl

@[simp]
theorem run_atConstant (value : Word) :
    run address (atConstant value :: code) s = run address code { s with a := value } := by
  rw [run_cons]
  rfl

@[simp]
theorem run_label (name : String) : run address (.label name :: code) s = run address code s := by
  rw [run_cons]
  rfl

/-- A computation needs its cell if it touches memory. -/
theorem run_compute (c : Computation) :
    run address (.compute c :: code) s =
      if c.touchesMemory then s.memory.fetch s.a >>= fun _ => run address code (s.compute c)
      else run address code (s.compute c) := by
  unfold Memory.fetch
  rw [run_cons, step]
  cases c.touchesMemory with
  | false => rfl
  | true =>
      by_cases h : s.a.toNat < memorySize
      · have hle : ¬ memorySize ≤ s.a.toNat := by omega
        simp [h, hle, Except.bind, bind]
      · have hle : memorySize ≤ s.a.toNat := by omega
        simp [h, hle, Except.bind, bind]

/-- A computation on the registers. -/
@[simp]
theorem run_assign_register (hr : comp.readsMemory = false) (hw : dest.writesM = false) :
    run address (assign dest comp :: code) s =
      run address code (s.receive dest (comp.eval s.a s.d 0)) := by
  have heval : comp.eval s.a s.d 0 = comp.eval s.a s.d (s.memory.read s.a.toNat) := by
    cases comp with
    | only y | not y | neg y | plusOne y | minusOne y | dPlus y | dMinus y | minusD y | dAnd y
    | dOr y =>
        cases y with
        | a => rfl
        | m => cases hr
    | _ => rfl
  rw [heval, assign, run_compute, Computation.touchesMemory, Computation.writesM, hr]
  cases dest with
  | a | d | ad => rfl
  | m | md | am | amd => cases hw

/-- A computation on memory for the registers. -/
@[simp]
theorem run_assign_fetch (hr : comp.readsMemory = true) (hw : dest.writesM = false) :
    run address (assign dest comp :: code) s = s.memory.fetch s.a >>= fun m =>
      run address code (s.receive dest (comp.eval s.a s.d m)) := by
  rw [assign, run_compute, Computation.touchesMemory, hr, Bool.true_or, if_pos rfl]
  refine Eq.trans ?_ (s.memory.fetch_bind_read s.a fun m =>
    run address code (s.receive dest (comp.eval s.a s.d m)))
  cases dest with
  | a | d | ad => rfl
  | m | md | am | amd => cases hw

/-- A computation for memory. -/
@[simp]
theorem run_assign_put (hw : dest.writesM = true) :
    run address (assign dest comp :: code) s =
      s.memory.put s.a (comp.eval s.a s.d (s.memory.read s.a.toNat)) >>= fun memory =>
      run address code ({ s with memory := memory }.receive dest
        (comp.eval s.a s.d (s.memory.read s.a.toNat))) := by
  have htouch : ({ dest := some dest, comp := comp, jump := none } :
      Computation).touchesMemory = true := by
    show (comp.readsMemory || dest.writesM) = true
    rw [hw, Bool.or_true]
  rw [assign, run_compute, if_pos htouch]
  refine Eq.trans ?_ (s.memory.fetch_bind_write s.a _ fun memory =>
    run address code ({ s with memory := memory }.receive dest
      (comp.eval s.a s.d (s.memory.read s.a.toNat))))
  cases dest with
  | a | d | ad => cases hw
  | m | md | am | amd => rfl

end Instructions

/-- A temporary that keeps to its segment has an address. -/
theorem ofSegment_temp {ctx : Context} {index : Word}
    (hbounds : Command.checkSegment .temp index = .ok ()) :
    Access.ofSegment ctx .temp index = .ok (.direct (5 + index)) := by
  have hindex : index.toNat ≤ 7 := Command.checkIndex_eq_ok_iff.mp hbounds
  rw [Access.ofSegment, if_pos]
  · rw [BitVec.ofNat_add, BitVec.ofNat_toNat]
    simp [tempBase]
  · unfold tempBase
    omega

/-- The pointer segment is the two cells of the last two bases. -/
theorem address_pointer {address : String → Word} (h : Addressing address) {index : Word}
    (hbounds : Command.checkSegment .pointer index = .ok ()) :
    address (if index = 0#16 then "THIS" else "THAT") = 3#16 + index := by
  have hindex : index.toNat ≤ 1 := Command.checkIndex_eq_ok_iff.mp hbounds
  by_cases hzero : index = 0#16
  · rw [if_pos hzero, h.this, hzero]
    rfl
  · have hone : index = 1#16 := by bv_omega
    rw [if_neg hzero, h.that, hone]
    rfl

/-- Code whose outcome depends on memory alone can be put behind other code
    of which only the memory is known. -/
theorem view_run_append {α : Type} {address : String → Word} {view : Store → α}
    {code rest : List Instruction} {s : Store} (f : Memory → Except Fault α)
    (hrest : ∀ s, view <$> run address rest s = f s.memory) :
    view <$> run address (code ++ rest) s = memory <$> run address code s >>= f := by
  rw [run_append]
  cases run address code s with
  | ok s => exact hrest s
  | error fault => rfl

section Fragments

variable {address : String → Word} (h : Addressing address) (s : Store)

include h

/-- Register D is put on the stack. -/
theorem run_pushD :
    run address pushD s = (fun memory => ⟨memory, 0, s.d⟩) <$> s.memory.push s.d := by
  simp (disch := decide) [pushD, Memory.push, h.sp]

/-- A zero is put on the stack. -/
theorem run_pushZero :
    run address Lowering.pushZero s = (fun memory => ⟨memory, 0, s.d⟩) <$> s.memory.push 0 := by
  simp (disch := decide) [Lowering.pushZero, Memory.push, h.sp]

/-- The topmost word is taken off the stack, and A names the cell it was in. -/
theorem run_popToD :
    run address popToD s = (fun top => ⟨top.2, top.2.read 0, top.1⟩) <$> s.memory.pop := by
  simp (disch := decide) [popToD, Memory.pop, h.sp, Memory.read_write]

/-- Register A names the topmost word. -/
theorem run_addressTop :
    run address addressTop s = pure { s with a := s.memory.read 0 - 1 } := by
  simp (disch := decide) [addressTop, h.sp]

/-- A word of a segment is put on the stack. -/
theorem run_push {ctx : Context} {segment : Segment} {index : Word} {access : Access}
    (hbounds : (Command.push segment index).checkBounds = .ok ())
    (haccess : Access.ofSegment ctx segment index = .ok access) :
    memory <$> run address access.push s =
      s.memory.pushSegment (address (ctx.staticSymbol index)) segment index := by
  cases segment with
  | constant | static =>
      cases haccess
      simp (disch := decide) [Access.push, run_pushD h, Memory.pushSegment, Memory.segmentCell]
  | locals | arguments | this | that =>
      cases haccess
      simp (disch := decide) [Access.push, run_pushD h, Memory.pushSegment, Memory.segmentCell,
        h.lcl, h.arg, h.this, h.that, BitVec.add_comm index]
  | temp =>
      rw [ofSegment_temp hbounds] at haccess
      cases haccess
      simp (disch := decide) [Access.push, run_pushD h, Memory.pushSegment, Memory.segmentCell]
  | pointer =>
      cases haccess
      simp (disch := decide) [Access.push, run_pushD h, Memory.pushSegment, Memory.segmentCell,
        address_pointer h hbounds]

/-- The topmost word is taken off the stack into a segment. -/
theorem run_pop {ctx : Context} {segment : Segment} {index : Word} {access : Access}
    {code : List Instruction} (hbounds : (Command.pop segment index).checkBounds = .ok ())
    (haccess : Access.ofSegment ctx segment index = .ok access) (hcode : access.pop = .ok code) :
    memory <$> run address code s =
      s.memory.popSegment (address (ctx.staticSymbol index)) segment index := by
  cases segment with
  | constant =>
      cases haccess
      cases hcode
  | static =>
      cases haccess
      cases hcode
      simp (disch := decide) [run_append, run_popToD h, Memory.popSegment, Memory.segmentCell]
  | locals | arguments | this | that =>
      cases haccess
      cases hcode
      simp (disch := decide) [run_append, run_popToD h, Memory.popSegment, Memory.segmentCell,
        h.lcl, h.arg, h.this, h.that, h.r13, BitVec.add_comm index, Memory.pop, Memory.read_write,
        Memory.read_write_of_ne]
  | temp =>
      rw [ofSegment_temp hbounds] at haccess
      cases haccess
      cases hcode
      simp (disch := decide) [run_append, run_popToD h, Memory.popSegment, Memory.segmentCell]
  | pointer =>
      cases haccess
      cases hcode
      simp (disch := decide) [run_append, run_popToD h, Memory.popSegment, Memory.segmentCell,
        address_pointer h hbounds]

/-- An operation without a comparison works in place. -/
theorem run_operation {ctx ctx' : Context} {op : Operation} {code : List Instruction}
    (hop : op.jump? = none) (hcode : Lowering.operation ctx op = .ok (code, ctx')) :
    memory <$> run address code s = s.memory.operate op := by
  cases op with
  | add | sub | and | or =>
      cases hcode
      simp (disch := decide) [Lowering.combine, run_append, run_popToD h, Memory.operate,
        Memory.fetch_bind_put, Operation.combine, BitVec.add_comm, BitVec.and_comm,
        BitVec.or_comm]
  | neg | not =>
      cases hcode
      simp (disch := decide) [Lowering.transform, run_append, run_addressTop h, Memory.operate,
        Memory.fetch_bind_put, Operation.combine]
  | eq | gt | lt => cases hop

/-- A comparison subtracts first. -/
theorem run_subtract (labels : ComparisonLabels) :
    run address (Lowering.subtract labels) s = s.memory.pop >>= fun top =>
      top.2.fetch (top.2.read 0 - 1) >>= fun x =>
        pure ⟨top.2, address labels.ifTrue, x - top.1⟩ := by
  simp (disch := decide) [Lowering.subtract, run_append, run_popToD h]

/-- The topmost word is replaced by a constant. -/
theorem run_transform {comp : Comp} {value : Word} (hcomp : ∀ a d m, comp.eval a d m = value) :
    memory <$> run address (Lowering.transform comp) s =
      s.memory.put (s.memory.read 0 - 1) value := by
  rw [Lowering.transform, run_append, run_addressTop h, pure_bind, run_assign_put _ _ rfl, hcomp,
    ← bind_pure_comp, bind_assoc]
  exact bind_pure _

/-- The content of a pointer is put on the stack. -/
theorem run_savePointer {pointer : String} {cell : Nat} (hcell : cell < memorySize)
    (hpointer : address pointer = BitVec.ofNat 16 cell) :
    run address (Lowering.savePointer pointer) s =
      (fun memory => ⟨memory, 0, s.memory.read cell⟩) <$> s.memory.pushCell cell := by
  simp (disch := first | decide | assumption) [Lowering.savePointer, hpointer, run_pushD h,
    Memory.pushCell]

/-- A saved word is taken back into a pointer. -/
theorem run_restorePointer {pointer : String} {cell : Nat} (hcell : cell < memorySize)
    (hpointer : address pointer = BitVec.ofNat 16 cell) :
    memory <$> run address (Lowering.restorePointer pointer) s = s.memory.restoreCell cell := by
  simp (disch := first | decide | assumption) [Lowering.restorePointer, hpointer, h.r13,
    Memory.restoreCell, Memory.read_write]

/-- The locals of a function are cleared. -/
theorem run_pushZeros (count : Nat) :
    memory <$> run address (List.replicate count Lowering.pushZero).flatten s =
      s.memory.pushZeros count := by
  induction count generalizing s with
  | zero => rfl
  | succ count ih =>
      simp [List.replicate_succ, run_append, run_pushZero h, Memory.pushZeros, ih]

/-- Pointers are saved one after the other. -/
theorem run_savePointers {pointers : List String} {cells : List Nat}
    (hcells : List.Forall₂ (IsCell address) pointers cells) :
    memory <$> run address (pointers.flatMap Lowering.savePointer) s =
      cells.foldlM Memory.pushCell s.memory := by
  induction hcells generalizing s with
  | nil => rfl
  | cons hcell _ ih =>
      rw [List.flatMap_cons, view_run_append (List.foldlM Memory.pushCell · _) ih]
      simp [run_savePointer h _ hcell.1 hcell.2]

/-- Pointers are restored one after the other. -/
theorem run_restorePointers {pointers : List String} {cells : List Nat}
    (hcells : List.Forall₂ (IsCell address) pointers cells) :
    memory <$> run address (pointers.flatMap Lowering.restorePointer) s =
      cells.foldlM Memory.restoreCell s.memory := by
  induction hcells generalizing s with
  | nil => rfl
  | cons hcell _ ih =>
      rw [List.flatMap_cons, view_run_append (List.foldlM Memory.restoreCell · _) ih,
        run_restorePointer h _ hcell.1 hcell.2]
      rfl

/-- The saved pointers are the four bases. -/
theorem isCell_savedPointers : List.Forall₂ (IsCell address) savedPointers [1, 2, 3, 4] := by
  simp [savedPointers, IsCell, h.lcl, h.arg, h.this, h.that, memorySize]

/-- The new bases depend on memory alone. -/
theorem run_setBases (args : Word) :
    memory <$> run address (Lowering.setBases args) s = pure (s.memory.setBases args) := by
  simp (disch := decide) [Lowering.setBases, Memory.setBases, Lowering.frameSize_eq, h.sp,
    h.arg, h.lcl]

/-- A call saves the frame of its caller. -/
theorem run_saveFrame (args : Word) (label : String) :
    memory <$> run address (Lowering.saveFrame args label) s =
      s.memory.pushFrame (address label) args := by
  unfold Lowering.saveFrame
  rw [view_run_append (fun memory => pure (memory.setBases args)) (run_setBases h · args),
    view_run_append (List.foldlM Memory.pushCell · [1, 2, 3, 4]) fun s =>
      run_savePointers h s (isCell_savedPointers h)]
  simp (disch := decide) [run_pushD h, Memory.pushFrame]

/-- A return leaves its result where the arguments began. -/
theorem run_placeResult :
    memory <$> run address Lowering.placeResult s = s.memory.placeResult := by
  simp (disch := decide) [Lowering.placeResult, Memory.placeResult, Lowering.frameSize_eq,
    run_append, run_popToD h, h.lcl, h.r13, h.r14, h.arg, h.sp]

/-- A return restores the frame of its caller, and A ends up with the return
    address. -/
theorem run_restoreFrame :
    (fun s => (s.a, s.memory)) <$> run address Lowering.restoreFrame s = s.memory.popFrame := by
  have hend : ∀ s : Store, (fun s => (s.a, s.memory)) <$>
      run address [atSymbol "R14", assign .a (.only .m)] s =
        pure (s.memory.read 14, s.memory) := by
    intro s
    simp (disch := decide) [h.r14]
  unfold Lowering.restoreFrame
  rw [view_run_append (fun memory => pure (memory.read 14, memory)) hend,
    view_run_append (List.foldlM Memory.restoreCell · [4, 3, 2, 1]) fun s =>
      run_restorePointers h s (List.rel_reverse (isCell_savedPointers h)),
    run_placeResult h]
  simp [Memory.popFrame]

end Fragments
end Store
end HackVM
