import HackVM.Lowering.Frame
import HackVM.Lowering.Operation

/-!
# Lowering a Command

The code of any command in its context.

Lowering has three outcomes. It gives code, it refuses the command for the same
causes as reading does, or it runs out of label numbers. A refused command
leaves the context as it was, so the line can be dropped and the next one lowered
as if it had not been there.

## Main definitions

* `Options`: The choices that shape the output.
* `Lowered`: Code or a cause, with the context that follows.
* `lower`: The code of a command.

## Theorems

* `lower_eq_ok_ok_iff`: Code is that of a command within its bounds.
-/

namespace HackVM

/-- The choices that shape the output. -/
structure Options where
  /-- Show each source line as a comment before its code. -/
  echoSource : Bool
  /-- Let labels belong to the enclosing function. -/
  scopeLabels : Bool
  /-- Put the start of a program in front. -/
  bootstrap : Bool
  deriving DecidableEq, Repr

/-- Source lines are shown, labels are shared, and nothing is put in front. -/
def Options.default : Options :=
  { echoSource := true, scopeLabels := false, bootstrap := false }

/-- Code or a cause, with the context for the next line. -/
abbrev Lowered := Except CommandError (List Instruction) × Context

namespace Lowering

/-- Code that needs nothing of the context. -/
def plain (ctx : Context) (code : List Instruction) : Except Overflow Lowered :=
  .ok (.ok code, ctx)

/-- The code of a command whose bounds are known to hold. -/
def bounded (options : Options) (ctx : Context) : Command → Except Overflow Lowered
  | .push segment index =>
      (Access.ofSegment ctx segment index).map fun access => (.ok access.push, ctx)
  | .pop segment index =>
      (Access.ofSegment ctx segment index).map fun access => (access.pop, ctx)
  | .arithmetic op => (operation ctx op).map fun (code, ctx) => (.ok code, ctx)
  | .label name => plain ctx [.label (ctx.resolveLabel options.scopeLabels name)]
  | .goto name =>
      plain ctx [.atSymbol (ctx.resolveLabel options.scopeLabels name), .jumpAlways]
  | .ifGoto name =>
      plain ctx (popToD ++
        [.atSymbol (ctx.resolveLabel options.scopeLabels name), .branch .d .jne])
  | .function name locals => plain (ctx.enterFunction name) (enter name locals)
  | .call name args =>
      (ctx.mintReturn name).map fun (label, ctx) => (.ok (call name args label), ctx)
  | .ret => plain ctx leave

end Lowering

/-- The code of a command. -/
def lower (options : Options) (ctx : Context) (command : Command) : Except Overflow Lowered :=
  match command.checkBounds with
  | .ok _ => Lowering.bounded options ctx command
  | .error cause => .ok (.error cause, ctx)

/-- Code is that of a command within its bounds. -/
theorem lower_eq_ok_ok_iff {options : Options} {ctx ctx' : Context} {command : Command}
    {code : List Instruction} :
    lower options ctx command = .ok (.ok code, ctx') ↔
      command.checkBounds = .ok () ∧
        Lowering.bounded options ctx command = .ok (.ok code, ctx') := by
  unfold lower
  cases command.checkBounds with
  | ok _ => simp
  | error cause => simp

end HackVM
