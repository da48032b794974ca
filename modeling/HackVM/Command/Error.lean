import HackVM.Command.Basic

/-!
# Command Errors

Why a line is not a command that can be lowered.

Each constructor is one cause and carries what its message quotes. The classes
group the causes by what a reader of the message would have to change: the
command word, an operand that the machine does not support, or the form of the
line.

## Main definitions

* `CommandError`: The causes.
* `CommandError.message`: Their wording.
* `ErrorClass`, `CommandError.errorClass`: Their grouping.
-/

namespace HackVM

/-- The groups of causes. -/
inductive ErrorClass where
  | unknownCommand
  | unsupportedOperand
  | malformed
  deriving DecidableEq, Repr

/-- The causes for which a command is refused. -/
inductive CommandError where
  /-- The first word of the line is no command. -/
  | unknownCommand (keyword : String)
  /-- The word after `push` or `pop` is no segment. -/
  | unsupportedSegment (command segment : String)
  /-- A constant is not a place to store into. -/
  | popConstant
  /-- The command takes another number of operands. -/
  | wrongOperandCount (command : String) (expected found : Nat)
  /-- An index or count is not a numeral of a word. -/
  | invalidIndex (value : String)
  /-- An index or count passes what the command allows. -/
  | indexOutOfRange (segment : String) (index max : Word)
  /-- A name has a character that names do not have. -/
  | invalidName (name : String)
  deriving DecidableEq, Repr

namespace CommandError

/-- The group of a cause. -/
def errorClass : CommandError → ErrorClass
  | .unknownCommand _ => .unknownCommand
  | .unsupportedSegment _ _ | .popConstant | .indexOutOfRange _ _ _ => .unsupportedOperand
  | .wrongOperandCount _ _ _ | .invalidIndex _ | .invalidName _ => .malformed

/-- The wording of a cause. -/
def message : CommandError → String
  | .unknownCommand keyword => "unknown command '" ++ keyword ++ "'"
  | .unsupportedSegment command segment =>
      "unsupported " ++ command ++ " segment '" ++ segment ++ "'"
  | .popConstant => "cannot pop into the constant segment"
  | .wrongOperandCount command expected found =>
      "'" ++ command ++ "' expects " ++ expected.repr ++ " operand(s), found " ++ found.repr
  | .invalidIndex value => "'" ++ value ++ "' is not a valid non-negative index"
  | .indexOutOfRange segment index max =>
      segment ++ " index " ++ Word.numeral index ++ " is out of range (maximum " ++
        Word.numeral max ++ ")"
  | .invalidName name => "'" ++ name ++ "' is not a valid symbol name"

end CommandError

end HackVM
