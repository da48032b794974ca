import HackVM.Command.Basic
import HackVM.Counter
import HackVM.Text.Numeral

/-!
# Generated Labels

The labels that lowering needs for itself, and how to tell them from others.

A comparison jumps over one of two stores and needs two labels; a call needs
one to come back to. Both kinds are numbered, the comparisons by one sequence
whatever they compare and the calls by another, so no two generated labels are
ever equal. The number stands at the end, after a mark that cannot be mistaken
for part of it: taking the digits off the end of a label leaves the stem that
decides its kind.

## Main definitions

* `LabelSupply`: The two sequences.
* `LabelSupply.comparison`, `LabelSupply.returnAddress`: The next labels.
* `numberedStem?`: A label without the number at its end.
* `isGenerated`: The label has the shape of a generated one.
-/

namespace HackVM

/-- The number of a label has 32 bits. -/
abbrev LabelNumber := Counter 4294967295

/-- The numbers of the next generated labels. -/
structure LabelSupply where
  nextComparison : LabelNumber
  nextReturn : LabelNumber
  deriving DecidableEq, Repr

/-- The two labels of one comparison. -/
structure ComparisonLabels where
  ifTrue : String
  finish : String
  deriving DecidableEq, Repr

namespace Operation

/-- The name of an operation inside a label. -/
def labelName : Operation → String
  | .add => "ADD"
  | .sub => "SUB"
  | .neg => "NEG"
  | .eq => "EQ"
  | .gt => "GT"
  | .lt => "LT"
  | .and => "AND"
  | .or => "OR"
  | .not => "NOT"

/-- What a label for the true outcome starts with. -/
def trueStem (op : Operation) : String :=
  op.labelName ++ "_TRUE_"

/-- What a label for the end of a comparison starts with. -/
def finishStem (op : Operation) : String :=
  op.labelName ++ "_END_"

end Operation

/-- What stands between the name of a function and the number of a call. -/
def returnMark : String := "$ret."

namespace LabelSupply

/-- Both sequences from their beginning. -/
def initial : LabelSupply :=
  { nextComparison := .zero, nextReturn := .zero }

/-- The labels of the next comparison. -/
def comparison (supply : LabelSupply) (op : Operation) :
    Except Overflow (ComparisonLabels × LabelSupply) :=
  let number := supply.nextComparison.value.repr
  supply.nextComparison.next.map fun following =>
    ({ ifTrue := op.trueStem ++ number, finish := op.finishStem ++ number },
      { supply with nextComparison := following })

/-- The label behind the next call. -/
def returnAddress (supply : LabelSupply) (callee : String) :
    Except Overflow (String × LabelSupply) :=
  let number := supply.nextReturn.value.repr
  supply.nextReturn.next.map fun following =>
    (callee ++ returnMark ++ number, { supply with nextReturn := following })

end LabelSupply

/-- A label without the number at its end, if it ends in one. -/
def numberedStem? (label : List Char) : Option (List Char) :=
  let backwards := label.reverse
  if (backwards.takeWhile Char.isDigit).isEmpty then none
  else some (backwards.dropWhile Char.isDigit).reverse

/-- A stem of the label behind a call: the name of a function and the mark. -/
def isReturnStem (stem : List Char) : Bool :=
  returnMark.toList.isSuffixOf stem && returnMark.length < stem.length

/-- A stem of a label of a comparison. -/
def isComparisonStem (stem : List Char) : Bool :=
  [Operation.eq, .gt, .lt].any fun op =>
    op.trueStem.toList == stem || op.finishStem.toList == stem

/-- The label has the shape of a generated one, so a line that declares it
    might meet one of them. -/
def isGenerated (label : String) : Bool :=
  match numberedStem? label.toList with
  | some stem => isReturnStem stem || isComparisonStem stem
  | none => false

end HackVM
