import HackVM.Lowering.Label
import Std.Data.TreeSet

/-!
# Context of a Line

What lowering one line needs to know of the lines before it.

The name of the unit gives static variables their symbols, and the enclosing
function gives its labels theirs. The label supply and the set of declared
labels belong to the whole program: moving on to the next unit keeps both, so
labels stay distinct across units, and forgets only the enclosing function.

## Main definitions

* `Context`: The state between two lines.
* `Context.staticSymbol`, `Context.resolveLabel`: Names of the unit and function.
* `Context.declare`: Record a label.
* `Context.mintComparison`, `Context.mintReturn`: Generated labels, recorded.
* `Context.beginUnit`, `Context.reset`: A new unit, or a new program.
-/

namespace HackVM

/-- The state between two lines of a program. -/
structure Context where
  unit : String
  labels : LabelSupply
  function? : Option String
  declared : Std.TreeSet String

namespace Context

/-- The start of a program whose first unit has this name. -/
def initial (unit : String) : Context :=
  { unit := unit, labels := .initial, function? := none, declared := ∅ }

/-- The symbol of a static variable, which no other unit uses. -/
def staticSymbol (ctx : Context) (index : Word) : String :=
  ctx.unit ++ "." ++ Word.numeral index

/-- The symbol of a label, qualified by the enclosing function if labels are
    kept per function. -/
def resolveLabel (ctx : Context) (perFunction : Bool) (name : String) : String :=
  match ctx.function?, perFunction with
  | some function, true => function ++ "$" ++ name
  | _, _ => name

/-- The label was declared before. -/
def isDeclared (ctx : Context) (label : String) : Bool :=
  ctx.declared.contains label

/-- Record a label. -/
def declare (ctx : Context) (label : String) : Context :=
  { ctx with declared := ctx.declared.insert label }

/-- The labels of the next comparison, recorded. -/
def mintComparison (ctx : Context) (op : Operation) :
    Except Overflow (ComparisonLabels × Context) :=
  (ctx.labels.comparison op).map fun (names, supply) =>
    (names, (({ ctx with labels := supply }).declare names.ifTrue).declare names.finish)

/-- The label behind the next call, recorded. -/
def mintReturn (ctx : Context) (callee : String) : Except Overflow (String × Context) :=
  (ctx.labels.returnAddress callee).map fun (label, supply) =>
    (label, ({ ctx with labels := supply }).declare label)

/-- The lines that follow belong to this function. -/
def enterFunction (ctx : Context) (name : String) : Context :=
  { ctx with function? := some name }

/-- The next unit of the same program. -/
def beginUnit (ctx : Context) (unit : String) : Context :=
  { ctx with unit := unit, function? := none }

/-- The start of another program in the same unit. -/
def reset (ctx : Context) : Context :=
  initial ctx.unit

end Context

end HackVM
