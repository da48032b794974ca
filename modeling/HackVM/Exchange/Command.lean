import HackVM.Command.Error
import HackVM.Exchange.Basic
import HackVM.Source

/-!
# Exchange Forms of Commands

The forms of segments, operations, commands, their errors, and source lines.

## Main definitions

* `Segment.tag`, `Operation.tag`, `ErrorClass.tag`, `CommandError.tag`: The tags.
* `Command.encode`, `Command.decode`: The form of a command.
* `CommandError.encode`, `CommandError.decode`: The form of an error.
-/

namespace HackVM

/-- The tag of a segment. -/
def Segment.tag : Segment → String
  | .constant => "Constant"
  | .static => "Static"
  | .locals => "Local"
  | .arguments => "Argument"
  | .this => "This"
  | .that => "That"
  | .temp => "Temp"
  | .pointer => "Pointer"

instance : Exchange Segment :=
  .enumeration Segment.all Segment.tag

/-- The tag of an operation. -/
def Operation.tag : Operation → String
  | .add => "Add"
  | .sub => "Sub"
  | .neg => "Neg"
  | .eq => "Eq"
  | .gt => "Gt"
  | .lt => "Lt"
  | .and => "And"
  | .or => "Or"
  | .not => "Not"

instance : Exchange Operation :=
  .enumeration Operation.all Operation.tag

/-- The tag of a class of errors. -/
def ErrorClass.tag : ErrorClass → String
  | .unknownCommand => "UnknownCommand"
  | .unsupportedOperand => "UnsupportedOperand"
  | .malformed => "Malformed"

instance : Exchange ErrorClass :=
  .enumeration [.unknownCommand, .unsupportedOperand, .malformed] ErrorClass.tag

namespace Command

/-- The operands of a command that moves a word. -/
def cellFields (segment : Segment) (index : Word) : Datum :=
  .record [("segment", Exchange.encode segment), ("index", Exchange.encode index)]

/-- The form of a command. -/
def encode : Command → Datum
  | .push segment index => .tagged "Push" (cellFields segment index)
  | .pop segment index => .tagged "Pop" (cellFields segment index)
  | .arithmetic op => .tagged "Arithmetic" (Exchange.encode op)
  | .label name => .tagged "Label" (.text name)
  | .goto name => .tagged "Goto" (.text name)
  | .ifGoto name => .tagged "IfGoto" (.text name)
  | .function name locals =>
      .tagged "Function" (.record [("name", .text name), ("locals", Exchange.encode locals)])
  | .call name args =>
      .tagged "Call" (.record [("name", .text name), ("args", Exchange.encode args)])
  | .ret => .text "Return"

/-- The command with this tag and content. -/
def ofContent? (tag : String) (content : Datum) : Option Command :=
  match tag with
  | "Push" => do pure (.push (← content.get "segment") (← content.get "index"))
  | "Pop" => do pure (.pop (← content.get "segment") (← content.get "index"))
  | "Arithmetic" => (Exchange.decode content).map .arithmetic
  | "Label" => (Exchange.decode content).map .label
  | "Goto" => (Exchange.decode content).map .goto
  | "IfGoto" => (Exchange.decode content).map .ifGoto
  | "Function" => do pure (.function (← content.get "name") (← content.get "locals"))
  | "Call" => do pure (.call (← content.get "name") (← content.get "args"))
  | _ => none

/-- The command with this form. -/
def decode (d : Datum) : Option Command :=
  match d.bareTag? with
  | some "Return" => some .ret
  | _ =>
      match d.tagged? with
      | some (tag, some content) => ofContent? tag content
      | _ => none

end Command

instance : Exchange Command where
  encode := Command.encode
  decode := Command.decode

namespace CommandError

/-- The tag of an error. -/
def tag : CommandError → String
  | .unknownCommand _ => "UnknownCommand"
  | .unsupportedSegment _ _ => "UnsupportedSegment"
  | .popConstant => "PopConstant"
  | .wrongOperandCount _ _ _ => "WrongOperandCount"
  | .invalidIndex _ => "InvalidIndex"
  | .indexOutOfRange _ _ _ => "IndexOutOfRange"
  | .invalidName _ => "InvalidName"

/-- What an error says beside its tag. -/
def fields : CommandError → List (String × Datum)
  | .unknownCommand keyword => [("keyword", .text keyword)]
  | .unsupportedSegment command segment => [("command", .text command), ("segment", .text segment)]
  | .popConstant => []
  | .wrongOperandCount command expected found =>
      [("command", .text command), ("expected", Exchange.encode expected),
        ("found", Exchange.encode found)]
  | .invalidIndex value => [("value", .text value)]
  | .indexOutOfRange segment index max =>
      [("segment", .text segment), ("index", Exchange.encode index), ("max", Exchange.encode max)]
  | .invalidName name => [("name", .text name)]

/-- The form of an error. -/
def encode (e : CommandError) : Datum :=
  if e.fields.isEmpty then .text e.tag else .tagged e.tag (.record e.fields)

/-- The error with this tag and content. -/
def ofContent? (tag : String) (content : Datum) : Option CommandError :=
  match tag with
  | "UnknownCommand" => (content.get "keyword").map .unknownCommand
  | "UnsupportedSegment" =>
      do pure (.unsupportedSegment (← content.get "command") (← content.get "segment"))
  | "WrongOperandCount" =>
      do pure (.wrongOperandCount (← content.get "command") (← content.get "expected")
        (← content.get "found"))
  | "InvalidIndex" => (content.get "value").map .invalidIndex
  | "IndexOutOfRange" =>
      do pure (.indexOutOfRange (← content.get "segment") (← content.get "index")
        (← content.get "max"))
  | "InvalidName" => (content.get "name").map .invalidName
  | _ => none

/-- The error with this form. -/
def decode (d : Datum) : Option CommandError :=
  match d.bareTag? with
  | some "PopConstant" => some .popConstant
  | _ =>
      match d.tagged? with
      | some (tag, some content) => ofContent? tag content
      | _ => none

end CommandError

instance : Exchange CommandError where
  encode := CommandError.encode
  decode := CommandError.decode

instance : Exchange SourceLine where
  encode s := .record [("line", encode s.line), ("text", encode s.text)]
  decode d := do pure { line := ← d.get "line", text := ← d.get "text" }

instance : Exchange ParsedLine where
  encode p :=
    .record [("line", encode p.line), ("text", encode p.text), ("result", encode p.result)]
  decode d := do
    pure { line := ← d.get "line", text := ← d.get "text", result := ← d.get "result" }

end HackVM
