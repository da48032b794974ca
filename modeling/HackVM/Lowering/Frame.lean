import HackVM.Command.Bounds
import HackVM.Lowering.Stack

/-!
# Calls and Frames

The instructions that enter and leave functions.

A call saves the return address and the four segment pointers on the stack,
points `ARG` at the arguments that lie below them and `LCL` at the first free
cell, and jumps. The function then clears its local variables by pushing zeros.
Returning undoes this from `LCL` downwards. The return address is read before
the result is stored, because a function without arguments stores its result
into the cell that holds the address.

## Main definitions

* `savedPointers`: The segment pointers in the order of saving.
* `Lowering.enter`: Begin a function.
* `Lowering.call`: Call a function and come back to a label.
* `Lowering.leave`: Return to the caller.
* `Lowering.bootstrap`: Start a program at its first function.
-/

namespace HackVM

open Instruction

/-- The segment pointers in the order in which a call saves them. -/
def savedPointers : List String :=
  ["LCL", "ARG", "THIS", "THAT"]

namespace Lowering

/-- Put a zero on the stack. -/
def pushZero : List Instruction :=
  [atSymbol "SP", assign .a (.only .m), assign .m .zero, atSymbol "SP", assign .m (.plusOne .m)]

/-- Begin a function: its label, and a zero for every local variable. -/
def enter (name : String) (locals : Word) : List Instruction :=
  .label name :: (List.replicate locals.toNat pushZero).flatten

/-- Put the content of a pointer on the stack. -/
def savePointer (pointer : String) : List Instruction :=
  [atSymbol pointer, assign .d (.only .m)] ++ pushD

/-- Call a function on arguments already on the stack, and come back to the
    label. -/
def call (name : String) (args : Word) (returnLabel : String) : List Instruction :=
  [atSymbol returnLabel, assign .d (.only .a)] ++ pushD ++
  savedPointers.flatMap savePointer ++
  -- The arguments lie below the five saved words, and `LCL` starts above them.
  [atSymbol "SP", assign .d (.only .m), atConstant (args + frameSize), assign .d (.dMinus .a),
    atSymbol "ARG", assign .m .d,
    atSymbol "SP", assign .d (.only .m), atSymbol "LCL", assign .m .d,
    atSymbol name, jumpAlways, .label returnLabel]

/-- Take the next saved word below the frame end in `R13` into a pointer. -/
def restorePointer (pointer : String) : List Instruction :=
  [atSymbol "R13", assign .am (.minusOne .m), assign .d (.only .m), atSymbol pointer,
    assign .m .d]

/-- Return to the caller with the topmost word in place of the arguments. -/
def leave : List Instruction :=
  -- The end of the frame goes to `R13` and the return address to `R14`.
  [atSymbol "LCL", assign .d (.only .m), atSymbol "R13", assign .m .d,
    atConstant frameSize, assign .a (.dMinus .a), assign .d (.only .m),
    atSymbol "R14", assign .m .d] ++
  -- From here on the cells of the frame may be overwritten.
  popToD ++
  [atSymbol "ARG", assign .a (.only .m), assign .m .d,
    atSymbol "ARG", assign .d (.plusOne .m), atSymbol "SP", assign .m .d] ++
  savedPointers.reverse.flatMap restorePointer ++
  [atSymbol "R14", assign .a (.only .m), jumpAlways]

/-- The function that a program starts with. -/
def entryFunction : String := "Sys.init"

/-- Set up the stack and call the first function of the program. -/
def bootstrap (returnLabel : String) : List Instruction :=
  [atConstant 256, assign .d (.only .a), atSymbol "SP", assign .m .d] ++
  call entryFunction 0 returnLabel

end Lowering

end HackVM
