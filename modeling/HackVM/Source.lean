import HackVM.Command.Parser
import HackVM.Text.Lines

/-!
# Source Programs

A program text as numbered lines, and the command on each of them.

Comments, blank lines and the spacing around a line carry no meaning and are
dropped here, once. What remains is numbered by its place in the text, counting
every physical line from one, so that a message points at the line the writer
sees.

## Main definitions

* `SourceLine`: A line with its number.
* `codePart`: A line without its comment and the blanks around it.
* `sourceLines`: The lines of a text that hold a command.
* `ParsedLine`, `parseLines`: The same lines with the command on them.
-/

namespace HackVM

/-- A line that holds a command, numbered from one. -/
structure SourceLine where
  line : Nat
  text : String
  deriving DecidableEq, Repr

/-- A line without its comment and without the blanks around it. -/
def codePart (cs : List Char) : List Char :=
  Text.trim (Text.beforeComment cs)

/-- The numbered line, if anything is left of it. -/
def SourceLine.ofNumbered? (numbered : List Char × Nat) : Option SourceLine :=
  let code := codePart numbered.1
  if code.isEmpty then none else some { line := numbered.2, text := String.ofList code }

/-- The lines of a text that hold a command. -/
def sourceLines (text : String) : List SourceLine :=
  ((Text.lines text).zipIdx 1).filterMap SourceLine.ofNumbered?

/-- A line together with the command on it, or the cause for which it has none. -/
structure ParsedLine where
  line : Nat
  text : String
  result : Except CommandError Command

/-- Read the command on a line. -/
def SourceLine.parse (source : SourceLine) : ParsedLine :=
  { line := source.line, text := source.text, result := Command.parse source.text }

/-- The commands of a text, line by line. A bad line does not affect the others. -/
def parseLines (text : String) : List ParsedLine :=
  (sourceLines text).map SourceLine.parse

end HackVM
