import HackVM.Text.Blank

/-!
# Words of a Line

The parts that a line is made of: its words, its comment, and the fields on
either side of a mark.

Words are collected by a right fold that carries the word now growing and the
words already complete. A blank closes the word after it, and a visible
character extends it, so no blank ever enters a word and no word is empty.

A comment starts at the first two slashes in a row and ends with the line. The
slashes are visible characters, so cutting the comment and trimming blanks can
be done in either order.

## Main definitions

* `words`: The words of a line, in order.
* `beforeComment`: The part of a line before its comment.
* `cut?`: The parts before and after the first occurrence of a mark.
-/

namespace HackVM

namespace Text

/-- A word that may still grow to the left, and the words after it. -/
structure OpenWords where
  current : List Char
  complete : List (List Char)

/-- Close the growing word, if it has any character. -/
def OpenWords.close (s : OpenWords) : List (List Char) :=
  if s.current.isEmpty then s.complete else s.current :: s.complete

/-- Read one more character to the left of those already seen. -/
def OpenWords.cons (c : Char) (s : OpenWords) : OpenWords :=
  if isBlank c then { current := [], complete := s.close }
  else { s with current := c :: s.current }

/-- The maximal runs of visible characters, in order. -/
def words (cs : List Char) : List (List Char) :=
  (cs.foldr OpenWords.cons { current := [], complete := [] }).close

/-- The part of a line before the first two slashes in a row. -/
def beforeComment : List Char → List Char
  | [] => []
  | '/' :: '/' :: _ => []
  | c :: rest => c :: beforeComment rest

/-- A text before and after the first occurrence of a character. -/
def cut? (mark : Char) (cs : List Char) : Option (List Char × List Char) :=
  match cs.span (· != mark) with
  | (before, _ :: after) => some (before, after)
  | (_, []) => none

end Text

end HackVM
