import HackVM.Command.Basic

/-!
# Writing Commands

The source text of a command: its words, one space between them, numbers as
the shortest numeral.

## Main definitions

* `Command.render`: The text of a command.
-/

namespace HackVM

namespace Command

/-- The source text of a command. -/
def render : Command → String
  | .push segment index => "push " ++ segment.keyword ++ " " ++ Word.numeral index
  | .pop segment index => "pop " ++ segment.keyword ++ " " ++ Word.numeral index
  | .arithmetic op => op.keyword
  | .label name => "label " ++ name
  | .goto name => "goto " ++ name
  | .ifGoto name => "if-goto " ++ name
  | .function name locals => "function " ++ name ++ " " ++ Word.numeral locals
  | .call name args => "call " ++ name ++ " " ++ Word.numeral args
  | .ret => "return"

end Command

end HackVM
