/-!
# Blank Characters

What counts as empty space in source text, and how it is cut off.

Both languages of this library, the stack commands and the assembly they
become, are written line by line with free spacing. Spacing is decided by one
Unicode property, White_Space, and not by the ASCII blanks alone: a line that
ends in a no-break space is the same line without it, while a zero-width space
is an ordinary character and makes a name invalid. The property is a table of
ranges, so every question about blanks is a question about this one list.

## Main definitions

* `blankRanges`: The code points with the property, as closed ranges.
* `isBlank`: Membership of a character in the table.
* `trimStart`, `trimEnd`, `trim`: Text without the blanks around it.

## Theorems

* `head_trimStart_not_blank`: Trimmed text starts with a visible character.
-/

namespace HackVM

namespace Text

/-- The code points with the Unicode property White_Space, as ranges whose
    ends are included. -/
def blankRanges : List (Nat × Nat) :=
  [(0x0009, 0x000D), (0x0020, 0x0020), (0x0085, 0x0085), (0x00A0, 0x00A0), (0x1680, 0x1680),
    (0x2000, 0x200A), (0x2028, 0x2029), (0x202F, 0x202F), (0x205F, 0x205F), (0x3000, 0x3000)]

/-- A character is blank when its code point lies in the table. -/
def isBlank (c : Char) : Bool :=
  blankRanges.any fun range => range.1 ≤ c.toNat && c.toNat ≤ range.2

/-- The text from its first visible character on. -/
def trimStart (cs : List Char) : List Char :=
  cs.dropWhile isBlank

/-- The text up to its last visible character. -/
def trimEnd (cs : List Char) : List Char :=
  (cs.reverse.dropWhile isBlank).reverse

/-- The text between its first and its last visible character. -/
def trim (cs : List Char) : List Char :=
  trimEnd (trimStart cs)

/-- Trimmed text starts with a visible character, if it starts at all. -/
theorem head_trimStart_not_blank {cs rest : List Char} {c : Char}
    (h : trimStart cs = c :: rest) : isBlank c = false := by
  induction cs with
  | nil => simp [trimStart] at h
  | cons d ds ih =>
      rw [trimStart, List.dropWhile_cons] at h
      split at h
      · exact ih h
      · next hd =>
          cases h
          simpa using hd

end Text

end HackVM
