import HackVM.Counter
import HackVM.Image.Statement
import HackVM.Image.Symbol

/-!
# Assembling

Assembly text as an image of code words.

Two passes walk over the statements. The first gives every label the number of
instructions before it, which is the address of the instruction behind it. The
second turns loads and computations into code words; a symbol that is no label
and no name of the machine is a variable, and variables get the memory cells
from sixteen on in the order of their first use. Labels come first because a
jump may lead forwards.

The address of an instruction is a word, and so is that of a variable. Either
sequence can run out, and then assembling fails.

## Main definitions

* `CodeWord`: An instruction whose symbols are resolved.
* `Image`: The code of a program with its symbols.
* `AssemblyError`: The causes for which a text has no image.
* `Labelling.add`, `labelStatements`: The first pass.
* `Resolving.add`, `resolveStatements`: The second pass.
* `assemble`: The image of a text.
-/

namespace HackVM

/-- An instruction whose symbols are resolved. -/
inductive CodeWord where
  /-- Put a word into register A. -/
  | load (value : Word)
  /-- Compute, store and perhaps jump. -/
  | compute (c : Computation)
  deriving DecidableEq, Repr

/-- The code of a program, and what its symbols stand for. -/
structure Image where
  code : Array CodeWord
  symbols : SymbolTable

/-- The causes for which a text has no image. -/
inductive AssemblyError where
  /-- The line is no instruction. -/
  | unreadable (line : Nat) (text : String)
  /-- A number to be loaded has more than 15 bits. -/
  | constantTooLarge (line : Nat) (value : String)
  /-- A label is the name of something else already. -/
  | duplicateLabel (line : Nat) (label : String)
  /-- An address does not fit a word. -/
  | overflow
  deriving DecidableEq, Repr

/-- The wording of a cause. -/
def AssemblyError.message : AssemblyError → String
  | .unreadable line text => "line " ++ line.repr ++ ": cannot parse '" ++ text ++ "'"
  | .constantTooLarge line value =>
      "line " ++ line.repr ++ ": constant " ++ value ++ " does not fit in 15 bits"
  | .duplicateLabel line label =>
      "line " ++ line.repr ++ ": label '" ++ label ++ "' defined twice"
  | .overflow => Overflow.message {}

/-- A sequence of addresses. -/
abbrev AddressCounter := Counter 65535

/-- The address a counter stands at. -/
def Counter.address (counter : AddressCounter) : Word :=
  BitVec.ofNat 16 counter.value

/-- Count on, or run out of addresses. -/
def Counter.following (counter : AddressCounter) : Except AssemblyError AddressCounter :=
  match counter.next with
  | .ok following => .ok following
  | .error _ => .error .overflow

/-- The labels found so far, and the address of the next instruction. -/
structure Labelling where
  symbols : SymbolTable
  nextAddress : AddressCounter

/-- Before the first statement. -/
def Labelling.initial : Labelling :=
  { symbols := .predefined, nextAddress := .zero }

/-- Bind a label, or count an instruction. -/
def Labelling.add (s : Labelling) (n : NumberedStatement) : Except AssemblyError Labelling :=
  match n.statement with
  | .label name =>
      match s.symbols.find? name with
      | some _ => .error (.duplicateLabel n.line name)
      | none => .ok { s with symbols := s.symbols.bind name s.nextAddress.address }
  | _ => s.nextAddress.following.map fun following => { s with nextAddress := following }

/-- The symbols of the machine together with the labels of the statements. -/
def labelStatements (ns : List NumberedStatement) : Except AssemblyError SymbolTable :=
  (ns.foldlM Labelling.add Labelling.initial).map Labelling.symbols

/-- The code so far, all symbols bound so far, and the cell of the next variable. -/
structure Resolving where
  code : Array CodeWord
  symbols : SymbolTable
  nextVariable : AddressCounter

/-- The first cell that holds a variable. -/
def variableBase : AddressCounter :=
  ⟨16, by decide⟩

/-- Before the first statement, with the labels known. -/
def Resolving.initial (symbols : SymbolTable) : Resolving :=
  { code := #[], symbols := symbols, nextVariable := variableBase }

/-- The greatest number that a load can hold. -/
def maxLoad : Nat := 32767

namespace Resolving

/-- Append a code word. -/
def emit (s : Resolving) (word : CodeWord) : Resolving :=
  { s with code := s.code.push word }

/-- Load what a symbol stands for; an unknown symbol is the next variable. -/
def loadSymbol (s : Resolving) (name : String) : Except AssemblyError Resolving :=
  match s.symbols.find? name with
  | some address => .ok (s.emit (.load address))
  | none =>
      let address := s.nextVariable.address
      s.nextVariable.following.map fun following =>
        { code := s.code.push (.load address), symbols := s.symbols.bind name address,
          nextVariable := following }

/-- Load a number or a symbol. -/
def load (s : Resolving) (n : NumberedStatement) (operand : List Char) :
    Except AssemblyError Resolving :=
  if operand.isEmpty then .error (.unreadable n.line (String.ofList (Text.trim n.text)))
  else if Text.isNumeral operand then
    match Text.readNumeral? maxLoad operand with
    | some value => .ok (s.emit (.load (BitVec.ofNat 16 value)))
    | none => .error (.constantTooLarge n.line (String.ofList operand))
  else s.loadSymbol (String.ofList operand)

/-- Turn a statement into code. -/
def add (s : Resolving) (n : NumberedStatement) : Except AssemblyError Resolving :=
  match n.statement with
  | .label _ => .ok s
  | .load operand => s.load n operand
  | .compute code =>
      match Computation.parse? code with
      | some c => .ok (s.emit (.compute c))
      | none => .error (.unreadable n.line (String.ofList code))

end Resolving

/-- The image of statements whose labels are known. -/
def resolveStatements (symbols : SymbolTable) (ns : List NumberedStatement) :
    Except AssemblyError Image :=
  (ns.foldlM Resolving.add (Resolving.initial symbols)).map fun s =>
    { code := s.code, symbols := s.symbols }

/-- The image of assembly text. -/
def assemble (text : String) : Except AssemblyError Image :=
  let ns := statements text
  (labelStatements ns).bind fun symbols => resolveStatements symbols ns

end HackVM
