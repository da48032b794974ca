import HackVM.Word

/-!
# Stack Commands

The commands of the stack machine and the words they are written with.

A command moves a word between the stack and one of eight memory segments,
replaces the topmost words of the stack by a result, or directs control. Every
index and count is a word, so that a command which can be written at all can
also be held in a register. Names are arbitrary texts here: whether a text is a
legal name is a rule of reading, and values built by other means keep whatever
name they were given.

## Main definitions

* `Segment`: The memory segments, with keyword and greatest index.
* `Operation`: The operations on the top of the stack.
* `Command`: One line of a program.

## Theorems

* `Segment.ofKeyword?_keyword`: A segment is found by its keyword.
* `Operation.ofKeyword?_keyword`: An operation is found by its keyword.
-/

namespace HackVM

/-- The memory segments that a command can name. -/
inductive Segment where
  | constant
  | static
  | locals
  | arguments
  | this
  | that
  | temp
  | pointer
  deriving DecidableEq, Repr

namespace Segment

/-- Every segment. -/
def all : List Segment :=
  [.constant, .static, .locals, .arguments, .this, .that, .temp, .pointer]

/-- The word that names a segment in source text. -/
def keyword : Segment → String
  | .constant => "constant"
  | .static => "static"
  | .locals => "local"
  | .arguments => "argument"
  | .this => "this"
  | .that => "that"
  | .temp => "temp"
  | .pointer => "pointer"

/-- The segment that a word names. -/
def ofKeyword? : String → Option Segment
  | "constant" => some .constant
  | "static" => some .static
  | "local" => some .locals
  | "argument" => some .arguments
  | "this" => some .this
  | "that" => some .that
  | "temp" => some .temp
  | "pointer" => some .pointer
  | _ => none

/-- The greatest index of a segment whose extent is fixed: a constant is
    loaded by one instruction and has 15 bits, there are eight temporaries and
    two pointers. -/
def maxIndex? : Segment → Option Word
  | .constant => some 32767
  | .temp => some 7
  | .pointer => some 1
  | _ => none

theorem ofKeyword?_keyword (segment : Segment) : ofKeyword? segment.keyword = some segment := by
  cases segment <;> rfl

end Segment

/-- The operations on the top of the stack. -/
inductive Operation where
  | add
  | sub
  | neg
  | eq
  | gt
  | lt
  | and
  | or
  | not
  deriving DecidableEq, Repr

namespace Operation

/-- Every operation. -/
def all : List Operation :=
  [.add, .sub, .neg, .eq, .gt, .lt, .and, .or, .not]

/-- The word that names an operation in source text. -/
def keyword : Operation → String
  | .add => "add"
  | .sub => "sub"
  | .neg => "neg"
  | .eq => "eq"
  | .gt => "gt"
  | .lt => "lt"
  | .and => "and"
  | .or => "or"
  | .not => "not"

/-- The operation that a word names. -/
def ofKeyword? : String → Option Operation
  | "add" => some .add
  | "sub" => some .sub
  | "neg" => some .neg
  | "eq" => some .eq
  | "gt" => some .gt
  | "lt" => some .lt
  | "and" => some .and
  | "or" => some .or
  | "not" => some .not
  | _ => none

/-- How many words the operation takes off the stack. -/
def arity : Operation → Nat
  | .neg | .not => 1
  | _ => 2

/-- Comparisons leave a truth value and need labels of their own. -/
def isComparison : Operation → Bool
  | .eq | .gt | .lt => true
  | _ => false

theorem ofKeyword?_keyword (op : Operation) : ofKeyword? op.keyword = some op := by
  cases op <;> rfl

end Operation

/-- One command of a program. -/
inductive Command where
  /-- Put a word of a segment on the stack. -/
  | push (segment : Segment) (index : Word)
  /-- Take a word off the stack into a segment. -/
  | pop (segment : Segment) (index : Word)
  /-- Replace the topmost words by a result. -/
  | arithmetic (op : Operation)
  /-- Name this place in the program. -/
  | label (name : String)
  /-- Go on at a named place. -/
  | goto (name : String)
  /-- Go on at a named place if the word taken off the stack is not zero. -/
  | ifGoto (name : String)
  /-- Begin a function with a number of local variables. -/
  | function (name : String) (locals : Word)
  /-- Call a function on a number of arguments already on the stack. -/
  | call (name : String) (args : Word)
  /-- Leave a function with the word on top of the stack. -/
  | ret
  deriving DecidableEq, Repr

end HackVM
