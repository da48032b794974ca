/-!
# Lines of Text

A text as a list of lines, in both directions.

A line ends at a line feed, and a carriage return directly before the feed
belongs to the ending rather than to the line. Any other carriage return is an
ordinary character. The last line may lack its ending, and a text that ends in
a line feed has no empty line after it, so a written list of lines is read back
with the same number of lines.

The text is first cut into pieces that keep their endings. The cut is a right
fold: a line feed opens a new piece in front of those already found, and any
other character joins the piece after it. Only then are the endings dropped,
each piece by itself, so a lone carriage return is never mistaken for one.

## Main definitions

* `pieces`: The text cut after each line feed.
* `chomp`: A piece without its line ending.
* `lines`: The lines of a text.
* `unlines`: The text whose lines are the given ones, each with a line feed.

## Theorems

* `pieces_append_newLine`: The first piece ends at the first line feed.
* `toList_unlines`: Written lines follow each other, each with its line feed.
* `lines_unlines_chomp`: Written lines are read back up to the endings they hold.
* `lines_unlines`: Written lines are read back, if none holds a line ending.
-/

namespace HackVM

namespace Text

/-- Put one character in front of pieces already cut. -/
def consPiece (c : Char) : List (List Char) → List (List Char)
  | [] => [[c]]
  | piece :: rest => if c = '\n' then [c] :: piece :: rest else (c :: piece) :: rest

/-- The text cut after each line feed, endings kept. -/
def pieces (cs : List Char) : List (List Char) :=
  cs.foldr consPiece []

/-- A piece without its line ending: a line feed, and with it one carriage
    return directly in front of it. -/
def chomp (piece : List Char) : List Char :=
  match piece.reverse with
  | '\n' :: '\r' :: rest => rest.reverse
  | '\n' :: rest => rest.reverse
  | _ => piece

/-- The lines of a text. -/
def lines (text : String) : List (List Char) :=
  (pieces text.toList).map chomp

/-- The text whose lines are the given ones, each ended by a line feed. -/
def unlines (ls : List String) : String :=
  ls.foldl (fun out line => out ++ line ++ "\n") ""

/-- The first piece ends at the first line feed. -/
theorem pieces_append_newLine (line rest : List Char) (h : '\n' ∉ line) :
    pieces (line ++ '\n' :: rest) = (line ++ ['\n']) :: pieces rest := by
  induction line with
  | nil =>
      show consPiece '\n' (pieces rest) = ['\n'] :: pieces rest
      cases pieces rest <;> rfl
  | cons c cs ih =>
      have hc : c ≠ '\n' := fun hc => h (by rw [hc]; exact List.mem_cons_self)
      have hcs : '\n' ∉ cs := fun hcs => h (List.mem_cons_of_mem c hcs)
      show consPiece c (pieces (cs ++ '\n' :: rest)) = _
      rw [ih hcs, consPiece, if_neg hc]
      rfl

/-- The ending of a line that does not end in a carriage return is its line
    feed alone. -/
theorem chomp_append_newLine (line : List Char) (h : line.getLast? ≠ some '\r') :
    chomp (line ++ ['\n']) = line := by
  rw [← List.head?_reverse] at h
  rw [chomp, List.reverse_append]
  show (match '\n' :: line.reverse with
    | '\n' :: '\r' :: rest => rest.reverse
    | '\n' :: rest => rest.reverse
    | _ => line ++ ['\n']) = line
  split
  · next rest hrest =>
      cases hline : line.reverse with
      | nil => rw [hline] at hrest; cases hrest
      | cons d ds =>
          rw [hline] at hrest h
          cases hrest
          exact absurd rfl h
  · next rest _ hrest =>
      cases hrest
      exact List.reverse_reverse line
  · next hne => exact absurd rfl (hne line.reverse)

theorem toList_foldl_lines (ls : List String) (out : String) :
    (ls.foldl (fun out line => out ++ line ++ "\n") out).toList =
      out.toList ++ ls.flatMap fun line => line.toList ++ ['\n'] := by
  induction ls generalizing out with
  | nil => rw [List.foldl_nil, List.flatMap_nil, List.append_nil]
  | cons l ls ih =>
      rw [List.foldl_cons, ih, List.flatMap_cons, String.toList_append, String.toList_append,
        List.append_assoc, List.append_assoc, List.append_assoc]
      rfl

/-- Written lines follow each other, each with its line feed. -/
theorem toList_unlines (ls : List String) :
    (unlines ls).toList = ls.flatMap fun line => line.toList ++ ['\n'] := by
  rw [unlines, toList_foldl_lines]
  rfl

/-- Written lines are read back without the endings that they hold themselves,
    if none of them holds a line feed. -/
theorem lines_unlines_chomp (ls : List String) (h : ∀ line ∈ ls, '\n' ∉ line.toList) :
    lines (unlines ls) = ls.map fun line => chomp (line.toList ++ ['\n']) := by
  rw [lines, toList_unlines]
  induction ls with
  | nil => rfl
  | cons l ls ih =>
      rw [List.flatMap_cons, List.append_assoc, List.singleton_append,
        pieces_append_newLine _ _ (h l List.mem_cons_self), List.map_cons,
        ih fun line hline => h line (List.mem_cons_of_mem l hline), List.map_cons]

/-- Written lines are read back, if none of them holds a line ending. -/
theorem lines_unlines (ls : List String)
    (h : ∀ line ∈ ls, '\n' ∉ line.toList ∧ line.toList.getLast? ≠ some '\r') :
    lines (unlines ls) = ls.map String.toList := by
  rw [lines_unlines_chomp ls fun line hline => (h line hline).1]
  exact List.map_congr_left fun line hline => chomp_append_newLine _ (h line hline).2

end Text

end HackVM
