/-!
# Data for Exchange

Untyped values, as other programs write and read them.

A datum is what a JSON text says. Whether a number is an integer is a matter of
how it is written, not of its value: digits alone are an integer, and a point or
an exponent makes a decimal, even if the value is whole. Records keep the order
of their fields, which is the order in which they are written.

## Main definitions

* `Datum`: The values.
* `Datum.natural`: A natural number as a datum.
* `Datum.field?`: A field of a record.
* `Datum.tagged?`: The tag of a value, and what stands under it.
-/

namespace HackVM

/-- A value without a type of its own. -/
inductive Datum where
  | null
  | bool (value : Bool)
  /-- A number written as digits alone. -/
  | integer (value : Int)
  /-- The number `mantissa` times ten to the power `exponent`, written with a
      point or an exponent. -/
  | decimal (mantissa exponent : Int)
  | text (value : String)
  | list (items : List Datum)
  | record (fields : List (String × Datum))
  deriving Inhabited

namespace Datum

/-- A natural number as a datum. -/
def natural (n : Nat) : Datum :=
  .integer n

/-- A value under a tag. -/
def tagged (tag : String) (content : Datum) : Datum :=
  .record [(tag, content)]

/-- A field of a record. -/
def field? (key : String) : Datum → Option Datum
  | .record fields => fields.lookup key
  | _ => none

/-- A tag is a text by itself, or the only field of a record that holds the
    content. -/
def tagged? : Datum → Option (String × Option Datum)
  | .text tag => some (tag, none)
  | .record [(tag, content)] => some (tag, some content)
  | _ => none

end Datum

end HackVM
