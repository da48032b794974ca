import HackVM.Counter
import HackVM.Datum.Basic
import HackVM.Word

/-!
# Exchange Forms

How typed values become data for other programs and come back.

A structure is a record with one field for each of its parts. A value of a
choice carries the tag of its alternative: alone if there is nothing else to
say, and otherwise as the only field of a record that holds the rest. Reading
is strict about types and ranges and lenient about records: fields that are not
asked for are ignored, and an optional field may be missing.

## Main definitions

* `Exchange`: Types with an exchange form.
* `Datum.get`, `Datum.getOptional`: A typed field of a record.
* `Exchange.enumeration`: The form of a choice among bare tags.
-/

namespace HackVM

/-- Types whose values can be exchanged. -/
class Exchange (α : Type) where
  encode : α → Datum
  decode : Datum → Option α

export Exchange (encode decode)

namespace Datum

/-- The integer that is written here. A decimal is none, whatever its value. -/
def toInt? : Datum → Option Int
  | .integer n => some n
  | _ => none

/-- The natural number that is written here, if it is at most `limit`. -/
def toNat? (limit : Nat) (d : Datum) : Option Nat :=
  d.toInt?.bind fun n => if 0 ≤ n ∧ n ≤ limit then some n.toNat else none

/-- A field that has to be there. -/
def get {α : Type} [Exchange α] (d : Datum) (key : String) : Option α :=
  (d.field? key).bind decode

/-- A field that may be missing, and then has no value. -/
def getOptional {α : Type} [Exchange (Option α)] (d : Datum) (key : String) : Option (Option α) :=
  match d.field? key with
  | some content => decode content
  | none => some none

/-- The tag of a value that has nothing but its tag. -/
def bareTag? (d : Datum) : Option String :=
  match d.tagged? with
  | some (tag, none) | some (tag, some .null) => some tag
  | _ => none

end Datum

namespace Exchange

variable {α : Type}

/-- The form of a choice among bare tags. -/
@[reducible]
def enumeration (all : List α) (tag : α → String) : Exchange α where
  encode a := .text (tag a)
  decode d := d.bareTag?.bind fun name => all.find? fun a => tag a == name

instance : Exchange String where
  encode := .text
  decode
    | .text value => some value
    | _ => none

instance : Exchange Word where
  encode w := .natural w.toNat
  decode d := (d.toNat? 65535).map (BitVec.ofNat 16)

/-- Numbers of lines and operands have 64 bits. -/
instance : Exchange Nat where
  encode := .natural
  decode d := d.toNat? 18446744073709551615

instance {limit : Nat} : Exchange (Counter limit) where
  encode c := .natural c.value
  decode d := (d.toNat? limit).bind Counter.ofNat?

instance [Exchange α] : Exchange (List α) where
  encode items := .list (items.map encode)
  decode
    | .list items => items.mapM decode
    | _ => none

instance [Exchange α] : Exchange (Option α) where
  encode
    | some a => encode a
    | none => .null
  decode
    | .null => some none
    | d => (decode d).map some

instance {ε : Type} [Exchange ε] [Exchange α] : Exchange (Except ε α) where
  encode
    | .ok a => .tagged "Ok" (encode a)
    | .error e => .tagged "Err" (encode e)
  decode d :=
    match d.tagged? with
    | some ("Ok", some content) => (decode content).map .ok
    | some ("Err", some content) => (decode content).map .error
    | _ => none

end Exchange

end HackVM
