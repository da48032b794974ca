import HackVM.Assembly.Instruction
import HackVM.Lowering.Context
import HackVM.Command.Error

/-!
# Stack and Segments

The instructions that move one word between the stack and a segment.

The stack pointer is the memory cell `SP` and names the first free cell. A
segment is reached in one of five ways: a constant is its own value, a static
variable and a pointer have a symbol, a temporary has a fixed address, and the
four remaining segments start where a base cell points. Pushing and popping
are written once for each way.

A pop into a segment with a base has to compute the target before it takes the
word off the stack, since both need register D.

## Main definitions

* `Access`: The five ways to reach a word of a segment.
* `Access.ofSegment`: The way for a segment and an index.
* `pushD`, `popToD`, `addressTop`: The stack seen from register D.
* `Access.push`, `Access.pop`: Moving a word to and from the stack.
-/

namespace HackVM

/-- The first of the cells that hold temporaries. -/
def tempBase : Nat := 5

/-- The ways to reach a word of a segment. -/
inductive Access where
  /-- The word is the index itself. -/
  | immediate (value : Word)
  /-- The word is the cell of a symbol that belongs to the unit. -/
  | static (symbol : String)
  /-- The word lies behind the cell that a base points at. -/
  | indirect (base : String) (index : Word)
  /-- The word is the cell with a fixed address. -/
  | direct (address : Word)
  /-- The word is the cell of a predefined symbol. -/
  | register (name : String)
  deriving DecidableEq, Repr

namespace Access

/-- The way to reach a word of a segment. The address of a temporary has to be
    a word itself. -/
def ofSegment (ctx : Context) (segment : Segment) (index : Word) : Except Overflow Access :=
  match segment with
  | .constant => .ok (.immediate index)
  | .static => .ok (.static (ctx.staticSymbol index))
  | .locals => .ok (.indirect "LCL" index)
  | .arguments => .ok (.indirect "ARG" index)
  | .this => .ok (.indirect "THIS" index)
  | .that => .ok (.indirect "THAT" index)
  | .temp =>
      if tempBase + index.toNat < 65536 then
        .ok (.direct (BitVec.ofNat 16 (tempBase + index.toNat)))
      else .error {}
  | .pointer => .ok (.register (if index = 0 then "THIS" else "THAT"))

end Access

open Instruction

/-- Put D on the stack. -/
def pushD : List Instruction :=
  [atSymbol "SP", assign .a (.only .m), assign .m .d, atSymbol "SP", assign .m (.plusOne .m)]

/-- Take the topmost word off the stack into D. A is left naming its cell. -/
def popToD : List Instruction :=
  [atSymbol "SP", assign .am (.minusOne .m), assign .d (.only .m)]

/-- Make A name the cell of the topmost word. -/
def addressTop : List Instruction :=
  [atSymbol "SP", assign .a (.minusOne .m)]

namespace Access

/-- Put the word on the stack. -/
def push (access : Access) : List Instruction :=
  (match access with
    | .immediate value => [atConstant value, assign .d (.only .a)]
    | .static symbol => [atSymbol symbol, assign .d (.only .m)]
    | .indirect base index =>
        [atConstant index, assign .d (.only .a), atSymbol base, assign .a (.dPlus .m),
          assign .d (.only .m)]
    | .direct address => [atConstant address, assign .d (.only .m)]
    | .register name => [atSymbol name, assign .d (.only .m)]) ++ pushD

/-- Take the topmost word off the stack into the place. A constant is no
    place. -/
def pop : Access → Except CommandError (List Instruction)
  | .immediate _ => .error .popConstant
  | .static symbol => .ok (popToD ++ [atSymbol symbol, assign .m .d])
  | .indirect base index =>
      -- The target waits in `R13`, because the word to be stored needs D.
      .ok ([atConstant index, assign .d (.only .a), atSymbol base, assign .d (.dPlus .m),
          atSymbol "R13", assign .m .d] ++ popToD ++
        [atSymbol "R13", assign .a (.only .m), assign .m .d])
  | .direct address => .ok (popToD ++ [atConstant address, assign .m .d])
  | .register name => .ok (popToD ++ [atSymbol name, assign .m .d])

end Access

end HackVM
