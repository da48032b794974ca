import HackVM.Word

/-!
# Memory

The 32768 cells of the machine.

Reading and writing by number are total: there is nothing outside to read or
to change. Looking in from outside takes any word for an address and uses its
low 15 bits, while the machine itself faults instead, so it only ever reaches
cells that exist.

## Main definitions

* `Memory`: The cells.
* `Memory.read`, `Memory.write`: One cell, by its number.
* `Memory.peek`, `Memory.poke`: One cell, by any word.
* `Memory.nonZero`: The cells that hold something.

## Theorems

* `Memory.read_write`: A written cell holds what was written.
* `Memory.read_write_of_ne`: The others hold what they held.
-/

namespace HackVM

/-- The number of memory cells. -/
def memorySize : Nat := 32768

/-- The memory cells. -/
structure Memory where
  cells : Vector Word memorySize

namespace Memory

/-- A memory of zeros. -/
def blank : Memory :=
  { cells := Vector.replicate memorySize 0 }

/-- The content of a cell; there is a zero where there is no cell. -/
def read (memory : Memory) (cell : Nat) : Word :=
  memory.cells[cell]?.getD 0

/-- Change the content of a cell, if there is one. -/
def write (memory : Memory) (cell : Nat) (value : Word) : Memory :=
  { cells := memory.cells.setIfInBounds cell value }

/-- The cell that a word names when its high bit is ignored. -/
def cellOf (address : Word) : Nat :=
  address.toNat % memorySize

/-- Look at the cell that a word names. -/
def peek (memory : Memory) (address : Word) : Word :=
  memory.read (cellOf address)

/-- Change the cell that a word names. -/
def poke (memory : Memory) (address value : Word) : Memory :=
  memory.write (cellOf address) value

/-- The word below the stack pointer, which is the top of the stack. -/
def stackTop (memory : Memory) : Word :=
  memory.peek (memory.peek 0 - 1)

/-- The cells that do not hold zero, in ascending order. -/
def nonZero (memory : Memory) : List (Nat × Word) :=
  (memory.cells.toList.zipIdx.filter fun entry => entry.1 != 0).map fun entry =>
    (entry.2, entry.1)

/-- A written cell holds what was written. -/
theorem read_write (memory : Memory) (cell : Nat) (value : Word) (h : cell < memorySize) :
    (memory.write cell value).read cell = value := by
  rw [read, write, Vector.getElem?_setIfInBounds_self_of_lt h]
  rfl

/-- Writing one cell leaves the others as they were. -/
theorem read_write_of_ne (memory : Memory) (cell other : Nat) (value : Word)
    (h : cell ≠ other) : (memory.write cell value).read other = memory.read other := by
  rw [read, write, Vector.getElem?_setIfInBounds_ne h, read]

end Memory

end HackVM
