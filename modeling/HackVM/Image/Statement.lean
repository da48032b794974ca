import HackVM.Assembly.Instruction
import HackVM.Source

/-!
# Statements of Assembly Text

What a line of assembly text says, before any name in it has a meaning.

A line is sorted by its first character: a bracket opens a label, an at sign a
load, and anything else is a computation. A bracket that is not closed at the
end of the line makes no label, and the line is then taken for a computation
that cannot be read. The text of a label or a load is kept as it stands, blanks
included.

## Main definitions

* `Statement`: The three kinds of line.
* `Statement.ofLine?`: The statement on a line.
* `NumberedStatement`, `statements`: The statements of a text.
* `Computation.parse?`: The computation that a text spells.
-/

namespace HackVM

/-- What a line of assembly text says. -/
inductive Statement where
  /-- Name the next instruction. -/
  | label (name : String)
  /-- Load a number or a symbol. -/
  | load (operand : List Char)
  /-- Compute. -/
  | compute (code : List Char)
  deriving DecidableEq, Repr

/-- The statement on a line, if the line holds one. -/
def Statement.ofLine? (line : List Char) : Option Statement :=
  match codePart line with
  | [] => none
  | '(' :: rest =>
      match rest.reverse with
      | ')' :: name => some (.label (String.ofList name.reverse))
      | _ => some (.compute ('(' :: rest))
  | '@' :: operand => some (.load operand)
  | code => some (.compute code)

/-- A statement with the line it stands on. -/
structure NumberedStatement where
  line : Nat
  /-- The whole line, its comment included. -/
  text : List Char
  statement : Statement

/-- The numbered line as a statement, if it holds one. -/
def NumberedStatement.ofNumbered? (numbered : List Char × Nat) : Option NumberedStatement :=
  (Statement.ofLine? numbered.1).map fun statement =>
    { line := numbered.2, text := numbered.1, statement := statement }

/-- The statements of a text, in order. -/
def statements (text : String) : List NumberedStatement :=
  ((Text.lines text).zipIdx 1).filterMap NumberedStatement.ofNumbered?

namespace Computation

/-- A text between blanks, as a field. -/
def field (cs : List Char) : String :=
  String.ofList (Text.trim cs)

/-- The destination in front of an equals sign, if there is one, and the rest. -/
def readDest? (code : List Char) : Option (Option Dest × List Char) :=
  match Text.cut? '=' code with
  | some (dest, rest) => (Dest.ofMnemonic? (field dest)).map fun found => (some found, rest)
  | none => some (none, code)

/-- The jump behind a semicolon, if there is one, and what stands before it. -/
def readJump? (code : List Char) : Option (List Char × Option Jump) :=
  match Text.cut? ';' code with
  | some (comp, jump) => (Jump.ofMnemonic? (field jump)).map fun found => (comp, some found)
  | none => some (code, none)

/-- The computation that a text spells. Blanks around its fields do not
    matter. -/
def parse? (code : List Char) : Option Computation := do
  let (dest, rest) ← readDest? code
  let (comp, jump) ← readJump? rest
  let comp ← Comp.ofMnemonic? (field comp)
  pure { dest := dest, comp := comp, jump := jump }

end Computation

end HackVM
