import HackVM.Command.Bounds
import HackVM.Text.Words

/-!
# Reading Commands

One line of text as a command, or the cause for which it is none.

The first word selects the command and the others are its operands. The causes
are looked for in a fixed order, so a line with several faults always reports
the same one: the number of operands, then the operands from left to right,
then a store into a constant, and last the bounds that hold for every command.

## Main definitions

* `isName`: The texts that labels and functions may be called by.
* `Command.ofWords`: The command that a list of words spells.
* `Command.parse`: The command on a line.
-/

namespace HackVM

/-- The characters of a name: ASCII letters and digits, and four signs. -/
def isNameChar (c : Char) : Bool :=
  c.isAlphanum || c == '_' || c == '.' || c == '$' || c == ':'

/-- A name has at least one character and does not start with a digit. -/
def isName (name : String) : Bool :=
  match name.toList with
  | [] => false
  | c :: rest => !c.isDigit && isNameChar c && rest.all isNameChar

namespace Command

/-- An index or count operand. -/
def readIndex (operand : String) : Except CommandError Word :=
  match Word.ofNumeral? operand.toList with
  | some index => .ok index
  | none => .error (.invalidIndex operand)

/-- A name operand. -/
def readName (operand : String) : Except CommandError String :=
  if isName operand then .ok operand else .error (.invalidName operand)

/-- The operands of `push` and `pop`. -/
def readSegmentIndex (command : String) : List String → Except CommandError (Segment × Word)
  | [segment, index] =>
      match Segment.ofKeyword? segment with
      | some s => (readIndex index).map (s, ·)
      | none => .error (.unsupportedSegment command segment)
  | operands => .error (.wrongOperandCount command 2 operands.length)

/-- The operand of the three commands that name a place. -/
def readPlace (command : String) : List String → Except CommandError String
  | [name] => readName name
  | operands => .error (.wrongOperandCount command 1 operands.length)

/-- The operands of `function` and `call`. -/
def readNameCount (command : String) : List String → Except CommandError (String × Word)
  | [name, count] =>
      match readName name with
      | .ok n => (readIndex count).map (n, ·)
      | .error e => .error e
  | operands => .error (.wrongOperandCount command 2 operands.length)

/-- The absent operands of a command that takes none. -/
def readNothing (command : String) : List String → Except CommandError Unit
  | [] => .ok ()
  | operands => .error (.wrongOperandCount command 0 operands.length)

/-- A store needs a place to store into. -/
def storeInto : Segment × Word → Except CommandError Command
  | (.constant, _) => .error .popConstant
  | (segment, index) => .ok (.pop segment index)

/-- The command that a keyword and its operands spell, its bounds unchecked. -/
def ofKeyword (keyword : String) (operands : List String) : Except CommandError Command :=
  match keyword with
  | "push" => (readSegmentIndex keyword operands).map fun (s, i) => .push s i
  | "pop" => (readSegmentIndex keyword operands).bind storeInto
  | "label" => (readPlace keyword operands).map .label
  | "goto" => (readPlace keyword operands).map .goto
  | "if-goto" => (readPlace keyword operands).map .ifGoto
  | "function" => (readNameCount keyword operands).map fun (n, k) => .function n k
  | "call" => (readNameCount keyword operands).map fun (n, k) => .call n k
  | "return" => (readNothing keyword operands).map fun _ => .ret
  | _ =>
      match Operation.ofKeyword? keyword with
      | some op => (readNothing keyword operands).map fun _ => .arithmetic op
      | none => .error (.unknownCommand keyword)

/-- The command that a list of words spells. No words spell no command. -/
def ofWords : List String → Except CommandError Command
  | [] => .error (.unknownCommand "")
  | keyword :: operands =>
      (ofKeyword keyword operands).bind fun command => command.checkBounds.map fun _ => command

/-- The command on a line. -/
def parse (line : String) : Except CommandError Command :=
  ofWords ((Text.words line.toList).map String.ofList)

end Command

end HackVM
