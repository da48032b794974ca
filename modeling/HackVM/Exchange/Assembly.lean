import HackVM.Assembly.Block
import HackVM.Exchange.Diagnostic

/-!
# Exchange Forms of Assembly

The forms of the fields of a computation, of addresses, instructions and
blocks.

## Main definitions

* `Dest.tag`, `Comp.tag`, `Jump.tag`: The tags.
* `Instruction.encode`, `Instruction.decode`: The form of an instruction.
-/

namespace HackVM

/-- The tag of a destination, which is also its mnemonic. -/
def Dest.tag (dest : Dest) : String :=
  dest.mnemonic

instance : Exchange Dest :=
  .enumeration Dest.all Dest.tag

/-- The tag of a computation, spelt in words. -/
def Comp.tag : Comp → String
  | .zero => "Zero"
  | .one => "One"
  | .negOne => "NegOne"
  | .d => "D"
  | .notD => "NotD"
  | .negD => "NegD"
  | .dPlusOne => "DPlusOne"
  | .dMinusOne => "DMinusOne"
  | .only y => y.mnemonic
  | .not y => "Not" ++ y.mnemonic
  | .neg y => "Neg" ++ y.mnemonic
  | .plusOne y => y.mnemonic ++ "PlusOne"
  | .minusOne y => y.mnemonic ++ "MinusOne"
  | .dPlus y => "DPlus" ++ y.mnemonic
  | .dMinus y => "DMinus" ++ y.mnemonic
  | .minusD y => y.mnemonic ++ "MinusD"
  | .dAnd y => "DAnd" ++ y.mnemonic
  | .dOr y => "DOr" ++ y.mnemonic

instance : Exchange Comp :=
  .enumeration Comp.all Comp.tag

/-- The tag of a jump. -/
def Jump.tag : Jump → String
  | .jgt => "Jgt"
  | .jeq => "Jeq"
  | .jge => "Jge"
  | .jlt => "Jlt"
  | .jne => "Jne"
  | .jle => "Jle"
  | .jmp => "Jmp"

instance : Exchange Jump :=
  .enumeration Jump.all Jump.tag

instance : Exchange Computation where
  encode c :=
    .record [("dest", encode c.dest), ("comp", encode c.comp), ("jump", encode c.jump)]
  decode d := do
    pure { dest := ← d.getOptional "dest", comp := ← d.get "comp", jump := ← d.getOptional "jump" }

instance : Exchange Address where
  encode
    | .constant value => .tagged "Constant" (encode value)
    | .symbol name => .tagged "Symbol" (encode name)
  decode d :=
    match d.tagged? with
    | some ("Constant", some content) => (decode content).map .constant
    | some ("Symbol", some content) => (decode content).map .symbol
    | _ => none

namespace Instruction

/-- The form of an instruction. -/
def encode : Instruction → Datum
  | .load address => .tagged "At" (Exchange.encode address)
  | .compute c => .tagged "Compute" (Exchange.encode c)
  | .label name => .tagged "Label" (.text name)
  | .comment text => .tagged "Comment" (.text text)

/-- The instruction with this form. -/
def decode (d : Datum) : Option Instruction :=
  match d.tagged? with
  | some ("At", some content) => (Exchange.decode content).map .load
  | some ("Compute", some content) => (Exchange.decode content).map .compute
  | some ("Label", some content) => (Exchange.decode content).map .label
  | some ("Comment", some content) => (Exchange.decode content).map .comment
  | _ => none

end Instruction

instance : Exchange Instruction where
  encode := Instruction.encode
  decode := Instruction.decode

instance : Exchange Block where
  encode b :=
    .record [("location", encode b.location), ("source", encode b.source), ("body", encode b.body)]
  decode d := do
    pure { location := ← d.get "location", source := ← d.get "source", body := ← d.get "body" }

end HackVM
