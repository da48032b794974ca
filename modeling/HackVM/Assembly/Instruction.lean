import HackVM.Word

/-!
# Assembly Instructions

The symbolic instructions of the accumulator machine.

The machine has two registers, A and D, and sees memory only through A: the
cell that A names is called M. A load puts a number or the address of a symbol
into A. A computation combines D with A or M, stores the result in any of the
three places, and may jump to the instruction whose address A holds.

Eight computations use D or nothing, and ten come in two forms, one for each
second operand. Keeping the operand as a parameter makes both forms one case,
and whether a computation reads memory is a question about its operand.

## Main definitions

* `Dest`, `Comp`, `Jump`: The three fields of a computation.
* `Computation`: The fields together.
* `Address`: What a load loads.
* `Instruction`: One line of assembly.
* `Instruction.render`: Its text.

## Theorems

* `Dest.ofMnemonic?_mnemonic`, `Comp.ofMnemonic?_mnemonic`,
  `Jump.ofMnemonic?_mnemonic`: A field is found by its mnemonic.
-/

namespace HackVM

/-- The places a computation stores its result in. -/
inductive Dest where
  | m
  | d
  | md
  | a
  | am
  | ad
  | amd
  deriving DecidableEq, Repr

namespace Dest

/-- Every destination. -/
def all : List Dest :=
  [.m, .d, .md, .a, .am, .ad, .amd]

/-- A destination in assembly text. -/
def mnemonic : Dest → String
  | .m => "M"
  | .d => "D"
  | .md => "MD"
  | .a => "A"
  | .am => "AM"
  | .ad => "AD"
  | .amd => "AMD"

/-- The destination that a text spells. -/
def ofMnemonic? (text : String) : Option Dest :=
  all.find? fun dest => dest.mnemonic == text

/-- The result goes to register A. -/
def writesA : Dest → Bool
  | .a | .am | .ad | .amd => true
  | _ => false

/-- The result goes to register D. -/
def writesD : Dest → Bool
  | .d | .md | .ad | .amd => true
  | _ => false

/-- The result goes to the memory cell that A names. -/
def writesM : Dest → Bool
  | .m | .md | .am | .amd => true
  | _ => false

theorem ofMnemonic?_mnemonic (dest : Dest) : ofMnemonic? dest.mnemonic = some dest := by
  cases dest <;> decide

end Dest

/-- The second operand of a computation: a register, or the cell it names. -/
inductive Operand where
  | a
  | m
  deriving DecidableEq, Repr

/-- The letter of an operand. -/
def Operand.mnemonic : Operand → String
  | .a => "A"
  | .m => "M"

/-- What a computation computes. -/
inductive Comp where
  | zero
  | one
  | negOne
  | d
  | notD
  | negD
  | dPlusOne
  | dMinusOne
  | only (y : Operand)
  | not (y : Operand)
  | neg (y : Operand)
  | plusOne (y : Operand)
  | minusOne (y : Operand)
  | dPlus (y : Operand)
  | dMinus (y : Operand)
  | minusD (y : Operand)
  | dAnd (y : Operand)
  | dOr (y : Operand)
  deriving DecidableEq, Repr

namespace Comp

/-- The computations that take no second operand. -/
def closed : List Comp :=
  [.zero, .one, .negOne, .d, .notD, .negD, .dPlusOne, .dMinusOne]

/-- The computations on one second operand. -/
def onOperand (y : Operand) : List Comp :=
  [.only y, .not y, .neg y, .plusOne y, .minusOne y, .dPlus y, .dMinus y, .minusD y, .dAnd y,
    .dOr y]

/-- Every computation. -/
def all : List Comp :=
  closed ++ onOperand .a ++ onOperand .m

/-- A computation in assembly text. -/
def mnemonic : Comp → String
  | .zero => "0"
  | .one => "1"
  | .negOne => "-1"
  | .d => "D"
  | .notD => "!D"
  | .negD => "-D"
  | .dPlusOne => "D+1"
  | .dMinusOne => "D-1"
  | .only y => y.mnemonic
  | .not y => "!" ++ y.mnemonic
  | .neg y => "-" ++ y.mnemonic
  | .plusOne y => y.mnemonic ++ "+1"
  | .minusOne y => y.mnemonic ++ "-1"
  | .dPlus y => "D+" ++ y.mnemonic
  | .dMinus y => "D-" ++ y.mnemonic
  | .minusD y => y.mnemonic ++ "-D"
  | .dAnd y => "D&" ++ y.mnemonic
  | .dOr y => "D|" ++ y.mnemonic

/-- The computation that a text spells. -/
def ofMnemonic? (text : String) : Option Comp :=
  all.find? fun comp => comp.mnemonic == text

/-- The second operand, if the computation takes one. -/
def operand? : Comp → Option Operand
  | .zero | .one | .negOne | .d | .notD | .negD | .dPlusOne | .dMinusOne => none
  | .only y | .not y | .neg y | .plusOne y | .minusOne y | .dPlus y | .dMinus y | .minusD y
  | .dAnd y | .dOr y => some y

/-- The computation depends on a memory cell. -/
def readsMemory (comp : Comp) : Bool :=
  comp.operand? == some .m

theorem ofMnemonic?_mnemonic (comp : Comp) : ofMnemonic? comp.mnemonic = some comp := by
  cases comp with
  | only y | not y | neg y | plusOne y | minusOne y | dPlus y | dMinus y | minusD y | dAnd y
  | dOr y => cases y <;> decide
  | _ => decide

end Comp

/-- When a computation jumps. -/
inductive Jump where
  | jgt
  | jeq
  | jge
  | jlt
  | jne
  | jle
  | jmp
  deriving DecidableEq, Repr

namespace Jump

/-- Every jump, in the order of its code. -/
def all : List Jump :=
  [.jgt, .jeq, .jge, .jlt, .jne, .jle, .jmp]

/-- A jump in assembly text. -/
def mnemonic : Jump → String
  | .jgt => "JGT"
  | .jeq => "JEQ"
  | .jge => "JGE"
  | .jlt => "JLT"
  | .jne => "JNE"
  | .jle => "JLE"
  | .jmp => "JMP"

/-- The jump that a text spells. -/
def ofMnemonic? (text : String) : Option Jump :=
  all.find? fun jump => jump.mnemonic == text

/-- The jump is taken on this result, read as a signed number. -/
def taken (jump : Jump) (out : Word) : Bool :=
  match jump with
  | .jgt => 0 < out.toInt
  | .jeq => out == 0
  | .jge => 0 ≤ out.toInt
  | .jlt => out.toInt < 0
  | .jne => out != 0
  | .jle => out.toInt ≤ 0
  | .jmp => true

theorem ofMnemonic?_mnemonic (jump : Jump) : ofMnemonic? jump.mnemonic = some jump := by
  cases jump <;> decide

end Jump

/-- A computation with the places its result goes to and the jump it decides. -/
structure Computation where
  dest : Option Dest
  comp : Comp
  jump : Option Jump
  deriving DecidableEq, Repr

/-- A computation in assembly text. -/
def Computation.render (c : Computation) : String :=
  (match c.dest with
    | some dest => dest.mnemonic ++ "="
    | none => "") ++
  c.comp.mnemonic ++
  (match c.jump with
    | some jump => ";" ++ jump.mnemonic
    | none => "")

/-- What a load puts into register A. -/
inductive Address where
  | constant (value : Word)
  | symbol (name : String)
  deriving DecidableEq, Repr

/-- An address in assembly text. -/
def Address.render : Address → String
  | .constant value => Word.numeral value
  | .symbol name => name

/-- One line of assembly. -/
inductive Instruction where
  /-- Put an address into register A. -/
  | load (address : Address)
  /-- Compute, store and perhaps jump. -/
  | compute (c : Computation)
  /-- Name the address of the next instruction. -/
  | label (name : String)
  /-- Say something to the reader. -/
  | comment (text : String)
  deriving DecidableEq, Repr

namespace Instruction

/-- Load the address of a symbol. -/
def atSymbol (name : String) : Instruction :=
  .load (.symbol name)

/-- Load a number. -/
def atConstant (value : Word) : Instruction :=
  .load (.constant value)

/-- Compute and store. -/
def assign (dest : Dest) (comp : Comp) : Instruction :=
  .compute { dest := some dest, comp := comp, jump := none }

/-- Compute and jump. -/
def branch (comp : Comp) (jump : Jump) : Instruction :=
  .compute { dest := none, comp := comp, jump := some jump }

/-- Jump whatever the registers hold. -/
def jumpAlways : Instruction :=
  branch .zero .jmp

/-- The instruction becomes a word of code; labels and comments do not. -/
def isExecutable : Instruction → Bool
  | .load _ | .compute _ => true
  | .label _ | .comment _ => false

/-- The text of an instruction. -/
def render : Instruction → String
  | .load address => "@" ++ address.render
  | .compute c => c.render
  | .label name => "(" ++ name ++ ")"
  | .comment text => "// " ++ text

end Instruction

end HackVM
