import HackVM.Lowering.Stack

/-!
# Operations on the Stack

The instructions of the nine operations.

Operations with two operands take the upper one into D and combine it with the
lower one where that lies, so the result replaces it. Operations with one
operand work in place. A comparison subtracts first, then stores minus one for
true and zero for false by jumping over one of the two stores.

## Main definitions

* `Lowering.combine`, `Lowering.transform`: Operations on two words and on one.
* `Lowering.compare`: Comparisons, on a pair of labels.
* `Lowering.operation`: The code of any operation.
-/

namespace HackVM

open Instruction

namespace Lowering

/-- Replace the two topmost words by a computation on D, the upper, and M, the
    lower. -/
def combine (comp : Comp) : List Instruction :=
  popToD ++ [assign .a (.minusOne .a), assign .m comp]

/-- Replace the topmost word by a computation on it. -/
def transform (comp : Comp) : List Instruction :=
  addressTop ++ [assign .m comp]

/-- Replace the two topmost words by whether the lower minus the upper
    satisfies the condition of the jump. -/
def compare (jump : Jump) (labels : ComparisonLabels) : List Instruction :=
  popToD ++
  [assign .a (.minusOne .a), assign .d (.minusD .m), atSymbol labels.ifTrue, branch .d jump] ++
  -- The pointer was lowered once, so the result lands on the lower word.
  addressTop ++
  [assign .m .zero, atSymbol labels.finish, jumpAlways, .label labels.ifTrue] ++
  addressTop ++
  [assign .m .negOne, .label labels.finish]

/-- The code of a comparison, which takes its labels from the supply. -/
def mintedCompare (ctx : Context) (op : Operation) (jump : Jump) :
    Except Overflow (List Instruction × Context) :=
  (ctx.mintComparison op).map fun (labels, ctx) => (compare jump labels, ctx)

/-- The code of an operation. -/
def operation (ctx : Context) (op : Operation) : Except Overflow (List Instruction × Context) :=
  match op with
  | .add => .ok (combine (.dPlus .m), ctx)
  | .sub => .ok (combine (.minusD .m), ctx)
  | .and => .ok (combine (.dAnd .m), ctx)
  | .or => .ok (combine (.dOr .m), ctx)
  | .neg => .ok (transform (.neg .m), ctx)
  | .not => .ok (transform (.not .m), ctx)
  | .eq => mintedCompare ctx op .jeq
  | .gt => mintedCompare ctx op .jgt
  | .lt => mintedCompare ctx op .jlt

end Lowering

end HackVM
