/-!
# Numerals

Natural numbers as they are written in both languages: one or more ASCII
digits, with no sign and no separator. Leading zeros are allowed and change
nothing. Writing uses the shortest numeral, the one `Nat.repr` gives.

## Main definitions

* `isNumeral`: One or more ASCII digits.
* `numeralValue`: The number that a numeral names.
* `readNumeral?`: The value of a numeral, if it does not pass a limit.

## Theorems

* `isDigit_of_mem_repr`, `isNumeral_repr`: A written number is a numeral.
* `numeralValue_repr`: A written number reads back as itself.
-/

namespace HackVM

namespace Text

/-- One or more ASCII digits. -/
def isNumeral (cs : List Char) : Bool :=
  !cs.isEmpty && cs.all Char.isDigit

/-- The number that a numeral names, its first digit the most significant. -/
def numeralValue (cs : List Char) : Nat :=
  Nat.ofDigitChars 10 cs 0

/-- The value of a numeral that names at most `limit`. -/
def readNumeral? (limit : Nat) (cs : List Char) : Option Nat :=
  if isNumeral cs && numeralValue cs ≤ limit then some (numeralValue cs) else none

/-- A number is written in digits. -/
theorem isDigit_of_mem_repr {n : Nat} {c : Char} (h : c ∈ n.repr.toList) : c.isDigit = true := by
  rw [Nat.toList_repr] at h
  exact Nat.isDigit_of_mem_toDigits (by omega) (by omega) h

theorem repr_ne_nil (n : Nat) : n.repr.toList ≠ [] := by
  rw [Nat.toList_repr]
  exact Nat.toDigits_ne_nil

/-- A written number is a numeral. -/
theorem isNumeral_repr (n : Nat) : isNumeral n.repr.toList = true := by
  simp only [isNumeral, Bool.and_eq_true, Bool.not_eq_true', List.isEmpty_eq_false_iff,
    List.all_eq_true]
  exact ⟨repr_ne_nil n, fun c hc => isDigit_of_mem_repr hc⟩

/-- A written number reads back as itself. -/
theorem numeralValue_repr (n : Nat) : numeralValue n.repr.toList = n := by
  rw [numeralValue, Nat.toList_repr]
  exact Nat.ofDigitChars_toDigits (by omega) (by omega)

end Text

end HackVM
