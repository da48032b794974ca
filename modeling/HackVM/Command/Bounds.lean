import HackVM.Command.Error

/-!
# Bounds of a Command

The limits that a command has to keep whatever way it was made.

Three segments have a fixed extent. A call has a limit too: the number of
arguments is loaded together with the five words of the saved frame, and that
sum has to fit the 15 bits of a load instruction. Storing into a constant is
not a matter of bounds and is refused elsewhere.

## Main definitions

* `frameSize`: The number of words a call saves.
* `maxArguments`: The greatest number of arguments of a call.
* `Command.checkBounds`: The check, with its cause of failure.
-/

namespace HackVM

/-- A call saves five words: the return address and four segment pointers. -/
def frameSize : Word := 5

/-- The greatest number of arguments of a call. -/
def maxArguments : Word := 32762

namespace Command

/-- An index or count is at most `max`, where a message names it by `what`. -/
def checkIndex (what : String) (index max : Word) : Except CommandError Unit :=
  if index.toNat ≤ max.toNat then .ok () else .error (.indexOutOfRange what index max)

theorem checkIndex_eq_ok_iff {what : String} {index max : Word} :
    checkIndex what index max = .ok () ↔ index.toNat ≤ max.toNat := by
  unfold checkIndex
  split
  · simp [*]
  · simp [*]

/-- An index keeps to the extent of its segment. -/
def checkSegment (segment : Segment) (index : Word) : Except CommandError Unit :=
  match segment.maxIndex? with
  | some max => checkIndex segment.keyword index max
  | none => .ok ()

/-- Every index and count of the command is within its limit. -/
def checkBounds : Command → Except CommandError Unit
  | .push segment index | .pop segment index => checkSegment segment index
  | .call _ args => checkIndex "call" args maxArguments
  | _ => .ok ()

end Command

end HackVM
