import HackVM.Datum.Basic

/-!
# Writing Data

Data as JSON text, laid out for a reader.

Every item of a list and every field of a record stands on a line of its own,
two spaces further in than the bracket around it, and an empty list or record
is two brackets. In texts only the quote, the backslash and the control
characters are escaped; five controls have a letter, the others are written by
their code.

The writer appends to the text written so far and walks along lists, so the
length of a listing costs no depth.

## Main definitions

* `Datum.quoted`: A text between quotes, escaped where it has to be.
* `Datum.pretty`: The layout of a datum.
-/

namespace HackVM

namespace Datum

/-- A control character by its code, in four digits of base sixteen. -/
def codeEscape (c : Char) : String :=
  "\\u00" ++ String.ofList [Nat.digitChar (c.toNat / 16), Nat.digitChar (c.toNat % 16)]

/-- One character of a quoted text. -/
def escapeChar (c : Char) : String :=
  match c with
  | '"' => "\\\""
  | '\\' => "\\\\"
  | '\n' => "\\n"
  | '\r' => "\\r"
  | '\t' => "\\t"
  | '\x08' => "\\b"
  | '\x0c' => "\\f"
  | c => if c.toNat < 0x20 then codeEscape c else c.toString

/-- A text between quotes. -/
def quoted (s : String) : String :=
  s.toList.foldl (fun out c => out ++ escapeChar c) "\"" ++ "\""

/-- The start of a line at the given depth. -/
def newLine (depth : Nat) : String :=
  "\n" ++ String.ofList (List.replicate (2 * depth) ' ')

/-- A decimal by its digits and its exponent. -/
def decimalText (mantissa exponent : Int) : String :=
  mantissa.repr ++ "e" ++ exponent.repr

mutual

/-- Append a datum that stands at the given depth. -/
def write (depth : Nat) (out : String) : Datum → String
  | .null => out ++ "null"
  | .bool value => out ++ if value then "true" else "false"
  | .integer value => out ++ value.repr
  | .decimal mantissa exponent => out ++ decimalText mantissa exponent
  | .text value => out ++ quoted value
  | .list [] => out ++ "[]"
  | .list (item :: items) =>
      writeItems depth (write (depth + 1) (out ++ "[" ++ newLine (depth + 1)) item) items
  | .record [] => out ++ "\x7b\x7d"
  | .record ((key, value) :: fields) =>
      writeFields depth
        (write (depth + 1) (out ++ "\x7b" ++ newLine (depth + 1) ++ quoted key ++ ": ") value)
        fields

/-- Append the items after the first, and close the list. -/
def writeItems (depth : Nat) (out : String) : List Datum → String
  | [] => out ++ newLine depth ++ "]"
  | item :: items =>
      writeItems depth (write (depth + 1) (out ++ "," ++ newLine (depth + 1)) item) items

/-- Append the fields after the first, and close the record. -/
def writeFields (depth : Nat) (out : String) : List (String × Datum) → String
  | [] => out ++ newLine depth ++ "\x7d"
  | (key, value) :: fields =>
      writeFields depth
        (write (depth + 1) (out ++ "," ++ newLine (depth + 1) ++ quoted key ++ ": ") value) fields

end

/-- The layout of a datum. -/
def pretty (d : Datum) : String :=
  d.write 0 ""

end Datum

end HackVM
