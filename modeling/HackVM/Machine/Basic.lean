import HackVM.Image.Assembler
import HackVM.Machine.Memory

/-!
# The Machine

The accumulator machine, step by step.

A step takes the code word that the program counter names. It faults if it
would touch memory through a register A that names no cell, and a faulting step
changes nothing but the number of steps. Otherwise all fields of a computation
see the register A from before the step: the cell that is read, the cell that
is written and the target of the jump are the same however the result is
stored. The machine halts when the counter leaves the code.

## Main definitions

* `Comp.eval`: The result of a computation.
* `Machine`: Memory, registers and counters.
* `Machine.fault?`: What stands in the way of a code word.
* `Machine.execute`: The effect of a code word that nothing stands in the way of.
* `Image.step`: One step.
* `Image.run`: Steps until the machine halts, faults or reaches a limit.
* `Image.trace`: The registers after each step.

## Theorems

* `Image.step_load`: A load sets register A.
* `Image.step_compute`: A computation that reaches its cell has its effect.
* `Image.step_fault`: A computation that does not is only counted.
-/

namespace HackVM

/-- The value of the second operand. -/
def Operand.eval (a m : Word) : Operand → Word
  | .a => a
  | .m => m

/-- The result of a computation on the registers and the cell that A names. -/
def Comp.eval (a d m : Word) : Comp → Word
  | .zero => 0
  | .one => 1
  | .negOne => -1
  | .d => d
  | .notD => ~~~d
  | .negD => -d
  | .dPlusOne => d + 1
  | .dMinusOne => d - 1
  | .only y => y.eval a m
  | .not y => ~~~(y.eval a m)
  | .neg y => -(y.eval a m)
  | .plusOne y => y.eval a m + 1
  | .minusOne y => y.eval a m - 1
  | .dPlus y => d + y.eval a m
  | .dMinus y => d - y.eval a m
  | .minusD y => y.eval a m - d
  | .dAnd y => d &&& y.eval a m
  | .dOr y => d ||| y.eval a m

namespace Computation

/-- The result goes to register A. -/
def writesA (c : Computation) : Bool :=
  c.dest.any Dest.writesA

/-- The result goes to register D. -/
def writesD (c : Computation) : Bool :=
  c.dest.any Dest.writesD

/-- The result goes to memory. -/
def writesM (c : Computation) : Bool :=
  c.dest.any Dest.writesM

/-- The computation reads or writes memory. -/
def touchesMemory (c : Computation) : Bool :=
  c.comp.readsMemory || c.writesM

/-- The result decides for the jump. -/
def jumps (c : Computation) (out : Word) : Bool :=
  c.jump.any fun jump => jump.taken out

end Computation

/-- Memory, registers and counters. -/
structure Machine where
  memory : Memory
  a : Word
  d : Word
  pc : Nat
  steps : Nat

/-- What ends a run before the machine halts. -/
inductive Fault where
  /-- Register A names no memory cell. -/
  | addressOutOfRange (address : Word)
  /-- The run is as long as was allowed. -/
  | stepLimit (limit : Nat)
  deriving DecidableEq, Repr

/-- The wording of a fault. -/
def Fault.message : Fault → String
  | .addressOutOfRange address =>
      "memory access at address " ++ Word.numeral address ++ " is outside RAM"
  | .stepLimit limit => "program did not halt within " ++ limit.repr ++ " steps"

namespace Machine

/-- The machine before its first step. -/
def initial : Machine :=
  { memory := .blank, a := 0, d := 0, pc := 0, steps := 0 }

/-- What stands in the way of a code word. -/
def fault? (m : Machine) : CodeWord → Option Fault
  | .load _ => none
  | .compute c =>
      if c.touchesMemory && memorySize ≤ m.a.toNat then some (.addressOutOfRange m.a) else none

/-- The effect of a computation. -/
def compute (c : Computation) : Machine → Machine
  | ⟨memory, a, d, pc, steps⟩ =>
      let out := c.comp.eval a d (memory.read a.toNat)
      { memory := if c.writesM then memory.write a.toNat out else memory
        a := if c.writesA then out else a
        d := if c.writesD then out else d
        pc := if c.jumps out then a.toNat else pc + 1
        steps := steps }

/-- The effect of a code word that nothing stands in the way of. -/
def execute (word : CodeWord) (m : Machine) : Machine :=
  match word with
  | .load value => { m with a := value, pc := m.pc + 1 }
  | .compute c => m.compute c

/-- Count a step. -/
def count (m : Machine) : Machine :=
  { m with steps := m.steps + 1 }

end Machine

namespace Image

/-- The counter has left the code. -/
def isHalted (image : Image) (m : Machine) : Bool :=
  image.code.size ≤ m.pc

/-- One step, with the fault that prevented its effect. A machine that has
    halted stays as it is. -/
def step (image : Image) (m : Machine) : Machine × Option Fault :=
  match image.code[m.pc]? with
  | none => (m, none)
  | some word =>
      match m.fault? word with
      | some fault => (m.count, some fault)
      | none => ((m.execute word).count, none)

/-- A load sets register A. -/
theorem step_load (image : Image) (m : Machine) (value : Word)
    (h : image.code[m.pc]? = some (.load value)) :
    image.step m = ({ m with a := value, pc := m.pc + 1, steps := m.steps + 1 }, none) := by
  rw [step, h]
  rfl

/-- A computation has its effect if it needs no memory or finds its cell. -/
theorem step_compute (image : Image) (m : Machine) (c : Computation)
    (h : image.code[m.pc]? = some (.compute c))
    (hcell : c.touchesMemory = true → m.a.toNat < memorySize) :
    image.step m = ((m.compute c).count, none) := by
  have hfault : m.fault? (.compute c) = none := by
    rw [Machine.fault?, if_neg]
    intro hboth
    rw [Bool.and_eq_true, decide_eq_true_eq] at hboth
    exact absurd (hcell hboth.1) (Nat.not_lt.mpr hboth.2)
  simp only [step, h, hfault, Machine.execute]

/-- A computation that does not find its cell is counted and nothing else. -/
theorem step_fault (image : Image) (m : Machine) (c : Computation)
    (h : image.code[m.pc]? = some (.compute c)) (htouch : c.touchesMemory = true)
    (hcell : memorySize ≤ m.a.toNat) :
    image.step m = (m.count, some (.addressOutOfRange m.a)) := by
  have hfault : m.fault? (.compute c) = some (.addressOutOfRange m.a) := by
    rw [Machine.fault?, if_pos]
    rw [Bool.and_eq_true, decide_eq_true_eq]
    exact ⟨htouch, hcell⟩
  simp only [step, h, hfault]

/-- Step until the machine halts or faults, at most `fuel` times. The fault at
    the end of the fuel names the limit of the whole run. -/
def runFor (image : Image) (limit : Nat) : Nat → Machine → Machine × Option Fault
  | 0, m => if image.isHalted m then (m, none) else (m, some (.stepLimit limit))
  | fuel + 1, m =>
      if image.isHalted m then (m, none)
      else
        match image.step m with
        | (after, none) => runFor image limit fuel after
        | (after, some fault) => (after, some fault)

/-- Step until the machine halts or faults, at most `limit` times. The result
    of a run that halts is the number of its steps. -/
def run (image : Image) (limit : Nat) (m : Machine) : Machine × Except Fault Nat :=
  let start := m.steps
  match image.runFor limit limit m with
  | (after, none) => (after, .ok (after.steps - start))
  | (after, some fault) => (after, .error fault)

/-- The counter and the registers after a step. -/
structure Snapshot where
  pc : Nat
  a : Word
  d : Word
  deriving DecidableEq, Repr

/-- Step until the machine halts or faults, at most `fuel` times, and note the
    registers after each step, the latest first. -/
def traceFrom (image : Image) (noted : List Snapshot) :
    Nat → Machine → Machine × List Snapshot × Option Fault
  | 0, m => (m, noted, none)
  | fuel + 1, m =>
      if image.isHalted m then (m, noted, none)
      else
        match image.step m with
        | (after, none) =>
            traceFrom image ({ pc := after.pc, a := after.a, d := after.d } :: noted) fuel after
        | (after, some fault) => (after, noted, some fault)

/-- Up to `limit` steps with the registers after each of them, and the fault
    that ended them. -/
def trace (image : Image) (limit : Nat) (m : Machine) :
    Machine × List Snapshot × Option Fault :=
  let (after, noted, fault) := image.traceFrom [] limit m
  (after, noted.reverse, fault)

end Image

end HackVM
