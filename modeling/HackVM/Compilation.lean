import HackVM.Assembly.Block
import HackVM.Lowering.Command
import HackVM.Source

/-!
# Compiling Programs

Whole units and programs, line by line.

Every source line that holds something becomes a block, in order. A line that
is refused becomes a block without code and an error in the log, and the lines
after it are compiled as if it were not there. Before a line is lowered, the
label it declares is checked: a label of a generated shape, or one declared
before, is a warning and is lowered all the same.

The units of a program share label numbers and declared labels. The start of a
program, if asked for, is a block of its own in front of the first unit.

## Main definitions

* `Compilation`: Blocks and messages so far.
* `Compiling`: The same, with the context of the next line.
* `Compiling.line`: One line more.
* `compileUnit`: A unit in a given context.
* `compileProgram`: Several units as one program.
* `compileText`: A unit by itself, as text.
-/

namespace HackVM

/-- The blocks and messages of a program. -/
structure Compilation where
  blocks : Array Block
  log : Log
  echoSource : Bool

namespace Compilation

/-- Nothing compiled yet. -/
def empty (echoSource : Bool) : Compilation :=
  { blocks := #[], log := .empty, echoSource := echoSource }

/-- The instructions of all blocks, in order. -/
def instructions (c : Compilation) : List Instruction :=
  c.blocks.toList.flatMap Block.instructions

/-- The program as assembly text. -/
def text (c : Compilation) : String :=
  renderText c.echoSource c.blocks.toList

/-- The program as a record listing. -/
def json (c : Compilation) : String :=
  renderJson c.blocks.toList

end Compilation

/-- What is compiled so far, and the context of the next line. -/
structure Compiling where
  ctx : Context
  output : Compilation

/-- The kinds of line that declare a label. -/
inductive Declaration where
  | label
  | function
  deriving DecidableEq, Repr

/-- A kind of declaration as messages name it. -/
def Declaration.noun : Declaration → String
  | .label => "label"
  | .function => "function"

/-- The label that a command declares in its context. -/
def Command.declaration? (options : Options) (ctx : Context) :
    Command → Option (Declaration × String)
  | .label name => some (.label, ctx.resolveLabel options.scopeLabels name)
  | .function name _ => some (.function, name)
  | _ => none

/-- What is wrong with declaring a label in its context. -/
def Context.labelWarning? (ctx : Context) (kind : Declaration) (label : String) : Option String :=
  if isGenerated label then
    some (kind.noun ++ " '" ++ label ++ "' collides with a generated label name")
  else if ctx.isDeclared label then
    some (kind.noun ++ " '" ++ label ++ "' declared more than once")
  else none

/-- What is wrong with a command that has code all the same. -/
def Command.warning? (options : Options) (ctx : Context) (command : Command) : Option String :=
  match command.declaration? options ctx with
  | some (kind, symbol) => ctx.labelWarning? kind symbol
  | none =>
      if command = .ret ∧ ctx.function? = none then some "return outside of any function"
      else none

/-- The context after the label that a command declares is recorded. -/
def Command.declareIn (options : Options) (ctx : Context) (command : Command) : Context :=
  match command.declaration? options ctx with
  | some (_, symbol) => ctx.declare symbol
  | none => ctx

namespace Compiling

/-- Nothing compiled yet, in a given context. -/
def initial (options : Options) (ctx : Context) : Compiling :=
  { ctx := ctx, output := .empty options.echoSource }

/-- Add a message. -/
def report (s : Compiling) (d : Diagnostic) : Except Overflow Compiling :=
  (s.output.log.push d).map fun log => { s with output := { s.output with log := log } }

/-- Add a block. -/
def emit (s : Compiling) (block : Block) : Compiling :=
  { s with output := { s.output with blocks := s.output.blocks.push block } }

/-- Report what is wrong with a command and record the label it declares. -/
def declare (options : Options) (location : Location) (command : Command) (s : Compiling) :
    Except Overflow Compiling :=
  let after := command.declareIn options s.ctx
  match command.warning? options s.ctx with
  | some message => report { s with ctx := after } (.ofWarning message location)
  | none => .ok { s with ctx := after }

/-- Add the block of a line, and an error if it has no code. -/
def finish (location : Location) (text : String) (body : Except CommandError (List Instruction))
    (s : Compiling) : Except Overflow Compiling :=
  let block : Block := { location := location, source := text, body := body }
  match body with
  | .ok _ => .ok (s.emit block)
  | .error cause => (s.report (.ofError cause location)).map fun s => s.emit block

/-- Compile one line. -/
def line (options : Options) (s : Compiling) (parsed : ParsedLine) : Except Overflow Compiling :=
  let location : Location := { unit := s.ctx.unit, line := parsed.line }
  match parsed.result with
  | .error cause => finish location parsed.text (.error cause) s
  | .ok command => do
      let s ← declare options location command s
      let (body, ctx) ← lower options s.ctx command
      finish location parsed.text body { s with ctx := ctx }

/-- Compile the lines of a unit. -/
def source (options : Options) (s : Compiling) (text : String) : Except Overflow Compiling :=
  (parseLines text).foldlM (line options) s

/-- Put the start of the program in front, if it is asked for. -/
def begin (options : Options) (s : Compiling) : Except Overflow Compiling :=
  if options.bootstrap then
    (s.ctx.mintReturn Lowering.entryFunction).map fun (label, ctx) =>
      { s with ctx := ctx }.emit
        { location := { unit := ctx.unit, line := 0 }, source := "bootstrap",
          body := .ok (Lowering.bootstrap label) }
  else .ok s

/-- Compile a further unit of the program. -/
def nextUnit (options : Options) (s : Compiling) (unit : String × String) :
    Except Overflow Compiling :=
  source options { s with ctx := s.ctx.beginUnit unit.1 } unit.2

end Compiling

/-- Compile a unit in a given context. -/
def compileUnit (options : Options) (ctx : Context) (text : String) :
    Except Overflow Compiling := do
  let s ← Compiling.begin options (Compiling.initial options ctx)
  Compiling.source options s text

/-- Compile named units as one program. -/
def compileProgram (options : Options) : List (String × String) → Except Overflow Compilation
  | [] => .ok (.empty options.echoSource)
  | (name, text) :: rest => do
      let s ← compileUnit options (Context.initial name) text
      let s ← rest.foldlM (Compiling.nextUnit options) s
      pure s.output

/-- Compile a unit by itself, as text. -/
def compileText (unit text : String) : Except Overflow String :=
  (compileUnit .default (Context.initial unit) text).map fun s => s.output.text

end HackVM
