import HackVM.Machine.Basic
import HackVM.Proofs.Program

/-!
# The Stack Machine

What commands mean, without reference to the code they become.

The machine works on the same memory as the accumulator machine. Its state is
the block it is about to execute and the memory, and every command is a
transformation of memory followed by a choice of the next block. All arithmetic
is that of words. The stack pointer is cell 0, the bases of four segments are
cells 1 to 4, and commands that stage an address or a return address leave it
in the scratch cells 13 and 14: these are cells like any other, a program can
point a segment at them, so they are part of the meaning.

A word may name a cell that does not exist. Using it is a fault, and ends the
run; nothing else can go wrong inside a command.

Two things are taken from the layout of the code, because memory shows them:
the cell of each static variable, and the address of each block, which a call
leaves on the stack for the return to come back to. A return may find any word
there. It goes to the first block at that address, or past the end, and a word
that is no such address leads it astray.

## Main definitions

* `Memory.fetch`, `Memory.put`: Memory access through a word.
* `Memory.push`, `Memory.pop`: The stack.
* `Memory.pushSegment`, `Memory.popSegment`: Moving words.
* `Operation.combine`, `Memory.operate`: Operations on the top of the stack.
* `Memory.pushFrame`, `Memory.popFrame`: Calls and returns.
* `StackMachine.Layout`: Static cells and block addresses.
* `StackMachine.step`, `StackMachine.run`: The machine.
-/

namespace HackVM

namespace Memory

/-- The word in the cell that a word names. -/
def fetch (memory : Memory) (address : Word) : Except Fault Word :=
  if address.toNat < memorySize then .ok (memory.read address.toNat)
  else .error (.addressOutOfRange address)

/-- Change the cell that a word names. -/
def put (memory : Memory) (address value : Word) : Except Fault Memory :=
  if address.toNat < memorySize then .ok (memory.write address.toNat value)
  else .error (.addressOutOfRange address)

/-- Put a word on the stack. -/
def push (memory : Memory) (value : Word) : Except Fault Memory := do
  let memory ← memory.put (memory.read 0) value
  return memory.write 0 (memory.read 0 + 1)

/-- Take the topmost word off the stack. -/
def pop (memory : Memory) : Except Fault (Word × Memory) := do
  let memory := memory.write 0 (memory.read 0 - 1)
  let value ← memory.fetch (memory.read 0)
  return (value, memory)

/-- The cell of a word of a segment, where the cell of a static variable is
    given. A constant has no cell. -/
def segmentCell (memory : Memory) (static : Word) (segment : Segment) (index : Word) : Word :=
  match segment with
  | .constant => index
  | .static => static
  | .locals => memory.read 1 + index
  | .arguments => memory.read 2 + index
  | .this => memory.read 3 + index
  | .that => memory.read 4 + index
  | .temp => 5 + index
  | .pointer => 3 + index

/-- Put a word of a segment on the stack. -/
def pushSegment (memory : Memory) (static : Word) (segment : Segment) (index : Word) :
    Except Fault Memory :=
  match segment with
  | .constant => memory.push index
  | _ => do
      let value ← memory.fetch (memory.segmentCell static segment index)
      memory.push value

/-- Take the topmost word off the stack into a segment. The target in a segment
    with a base is staged in cell 13. -/
def popSegment (memory : Memory) (static : Word) (segment : Segment) (index : Word) :
    Except Fault Memory := do
  let target := memory.segmentCell static segment index
  let memory :=
    match segment with
    | .locals | .arguments | .this | .that => memory.write 13 target
    | _ => memory
  let (value, memory) ← memory.pop
  memory.put target value

end Memory

namespace Operation

/-- Minus one for true, zero for false. -/
def truth (b : Bool) : Word :=
  if b then -1 else 0

/-- The result of an operation on two words, the upper of which is `y`.
    Comparisons look at the sign of the difference. -/
def combine (op : Operation) (x y : Word) : Word :=
  match op with
  | .add => x + y
  | .sub => x - y
  | .and => x &&& y
  | .or => x ||| y
  | .eq => truth (x - y == 0)
  | .gt => truth (0 < (x - y).toInt)
  | .lt => truth ((x - y).toInt < 0)
  | .neg => -y
  | .not => ~~~y

end Operation

namespace Memory

/-- Replace the topmost word, or the two topmost words, by the result of an
    operation. -/
def operate (memory : Memory) (op : Operation) : Except Fault Memory :=
  match op with
  | .neg | .not => do
      let top := memory.read 0 - 1
      let y ← memory.fetch top
      memory.put top (op.combine 0 y)
  | _ => do
      let (y, memory) ← memory.pop
      let cell := memory.read 0 - 1
      let x ← memory.fetch cell
      memory.put cell (op.combine x y)

/-- Put a number of zeros on the stack. -/
def pushZeros (memory : Memory) : Nat → Except Fault Memory
  | 0 => .ok memory
  | k + 1 => do
      let memory ← memory.push 0
      memory.pushZeros k

/-- Put the content of a cell on the stack. -/
def pushCell (memory : Memory) (cell : Nat) : Except Fault Memory :=
  memory.push (memory.read cell)

/-- Let the arguments begin below five saved words and the local variables
    above them. -/
def setBases (memory : Memory) (args : Word) : Memory :=
  let memory := memory.write 2 (memory.read 0 - (args + 5))
  memory.write 1 (memory.read 0)

/-- Begin a call: save the return address and the four bases. -/
def pushFrame (memory : Memory) (returnAddress args : Word) : Except Fault Memory := do
  let memory ← memory.push returnAddress
  let memory ← [1, 2, 3, 4].foldlM pushCell memory
  return memory.setBases args

/-- Put the topmost word in place of the first argument and drop what is above
    it. The end of the frame is kept in cell 13 and the return address, which
    the result may overwrite, in cell 14. -/
def placeResult (memory : Memory) : Except Fault Memory := do
  let frame := memory.read 1
  let memory := memory.write 13 frame
  let returnAddress ← memory.fetch (frame - 5)
  let memory := memory.write 14 returnAddress
  let (value, memory) ← memory.pop
  let memory ← memory.put (memory.read 2) value
  return memory.write 0 (memory.read 2 + 1)

/-- Take the next saved word below the frame end in cell 13 into a cell. -/
def restoreCell (memory : Memory) (cell : Nat) : Except Fault Memory := do
  let memory := memory.write 13 (memory.read 13 - 1)
  let value ← memory.fetch (memory.read 13)
  return memory.write cell value

/-- End a call: leave the result and restore the four bases. The return address
    comes with the memory. -/
def popFrame (memory : Memory) : Except Fault (Word × Memory) := do
  let memory ← memory.placeResult
  let memory ← [4, 3, 2, 1].foldlM restoreCell memory
  return (memory.read 14, memory)

end Memory

namespace StackMachine

/-- What the code shows in memory. -/
structure Layout where
  /-- The cell of a static variable, by its symbol. -/
  static : String → Word
  /-- The address of a block. -/
  address : Nat → Nat

/-- The block to be executed, and the memory. -/
structure State where
  block : Nat
  memory : Memory

/-- What comes of a step. -/
inductive Outcome where
  /-- The machine goes on. -/
  | running (s : State)
  /-- There is no further block. -/
  | halted (memory : Memory)
  /-- A word that names no cell was used for one. -/
  | faulted (fault : Fault)
  /-- A return found a word that is not the address of a block. -/
  | astray (address : Word) (memory : Memory)
  /-- A jump went to a name that no line declares. -/
  | undeclared (name : String)

/-- Go on with the next block. -/
def proceed (block : Nat) : Except Fault Memory → Outcome
  | .ok memory => .running { block := block + 1, memory := memory }
  | .error fault => .faulted fault

/-- Go on with the block that declares a name. -/
def jump (options : Options) (entries : List Entry) (name : String) (memory : Memory) : Outcome :=
  match entries.findIdx? fun entry => entry.declares? options == some name with
  | some block => .running { block := block, memory := memory }
  | none => .undeclared name

/-- Call a function from a block. -/
def call (options : Options) (layout : Layout) (entries : List Entry) (block : Nat) (name : String)
    (args : Word) (memory : Memory) : Outcome :=
  match memory.pushFrame (BitVec.ofNat 16 (layout.address (block + 1))) args with
  | .ok memory => jump options entries name memory
  | .error fault => .faulted fault

/-- The block at an address. An address behind all code belongs to no block, and
    the machine halts there. -/
def Layout.blockAt? (layout : Layout) (count address : Nat) : Option Nat :=
  if layout.address count ≤ address then some count
  else (List.range count).find? fun block => layout.address block == address

/-- Return to a caller. -/
def leave (layout : Layout) (entries : List Entry) : Except Fault (Word × Memory) → Outcome
  | .ok (address, memory) =>
      match layout.blockAt? entries.length address.toNat with
      | some block => .running { block := block, memory := memory }
      | none => .astray address memory
  | .error fault => .faulted fault

/-- Execute a command. -/
def perform (options : Options) (layout : Layout) (entries : List Entry) (l : Line) (s : State) :
    Command → Outcome
  | .push segment index =>
      proceed s.block (s.memory.pushSegment (layout.static (l.staticSymbol index)) segment index)
  | .pop segment index =>
      proceed s.block (s.memory.popSegment (layout.static (l.staticSymbol index)) segment index)
  | .arithmetic op => proceed s.block (s.memory.operate op)
  | .label _ => proceed s.block (.ok s.memory)
  | .goto name => jump options entries (l.symbol options name) s.memory
  | .ifGoto name =>
      match s.memory.pop with
      | .ok (value, memory) =>
          if value = 0 then proceed s.block (.ok memory)
          else jump options entries (l.symbol options name) memory
      | .error fault => .faulted fault
  | .function _ locals => proceed s.block (s.memory.pushZeros locals.toNat)
  | .call name args => call options layout entries s.block name args s.memory
  | .ret => leave layout entries s.memory.popFrame

/-- Execute the current block. A line that was refused does nothing, and the
    start of the program sets up the stack and calls the first function. -/
def step (options : Options) (layout : Layout) (entries : List Entry) (s : State) : Outcome :=
  match entries[s.block]? with
  | none => .halted s.memory
  | some (.start _) =>
      call options layout entries s.block "Sys.init" 0 (s.memory.write 0 256)
  | some (.line l) =>
      match l.parsed.result with
      | .error _ => proceed s.block (.ok s.memory)
      | .ok command => perform options layout entries l s command

/-- A number of steps, as long as the machine goes on. -/
def run (options : Options) (layout : Layout) (entries : List Entry) : Nat → State → Outcome
  | 0, s => .running s
  | n + 1, s =>
      match step options layout entries s with
      | .running s => run options layout entries n s
      | outcome => outcome

end StackMachine

end HackVM
