import HackVM.Proofs.Slices

/-!
# Memory Faults

A machine that cannot reach its cell stops in front of the computation that needs
the cell.

A computation may store its result in memory, in both registers and in the counter,
all in one step. Half of such a step would be worse than none, because the
registers would no longer say what was to be done. A step that faults therefore
does nothing at all, apart from being counted, and the machine that is left behind
can be looked at, or be sent on, which makes it fault again.

Whether a computation needs its cell is decided by its fields. What that means is
said here by what the computation does: memory can make a difference to its result,
or its result to memory. For storing a cell in itself only the first is true, and
for storing a number only the second.

## Main definitions

* `Computation.UsesMemory`: Memory makes a difference to a computation, or it to
  memory.
* `Image.OutOfReach`: The machine stands in front of a computation on a cell that
  there is not.
* `Image.advance`: The machine after a number of steps.
* `Image.Proceeds`: The next step has its effect.

## Theorems

* `Computation.usesMemory_iff`: The fields of a computation say whether it uses
  memory.
* `Image.step_of_outOfReach`, `Image.step_of_not_outOfReach`: A machine faults there
  and nowhere else.
* `Image.advance_of_reaches`: Reaching a machine is advancing to it.
* `Image.run_of_addressOutOfRange`: A run that faults has advanced to a fault.
* `fault_leaves_machine`: A fault leaves the machine where it was.
-/

namespace HackVM

namespace Comp

variable {comp : Comp}

/-- A computation that reads memory can tell an empty cell from a full one. -/
theorem eval_ne_of_readsMemory (h : comp.readsMemory = true) :
    comp.eval 0 1 0 ≠ comp.eval 0 1 (-1) := by
  cases comp with
  | only y | not y | neg y | plusOne y | minusOne y | dPlus y | dMinus y | minusD y | dAnd y
  | dOr y =>
      cases y with
      | a => cases h
      | m => decide
  | _ => cases h

/-- Any other computation does not see the cell. -/
theorem eval_eq_of_not_readsMemory (h : comp.readsMemory = false) (a d held held' : Word) :
    comp.eval a d held = comp.eval a d held' := by
  cases comp with
  | only y | not y | neg y | plusOne y | minusOne y | dPlus y | dMinus y | minusD y | dAnd y
  | dOr y =>
      cases y with
      | a => rfl
      | m => cases h
  | _ => rfl

end Comp

namespace Computation

variable {c : Computation}

/-- What the cell holds makes a difference to the result, or the result makes a
    difference to memory. -/
def UsesMemory (c : Computation) : Prop :=
  (∃ a d held held', c.comp.eval a d held ≠ c.comp.eval a d held') ∨
    ∃ m : Machine, (m.compute c).memory ≠ m.memory

/-- A result that is stored changes a cell that held another word. -/
theorem exists_memory_ne (hwrites : c.writesM = true) (hreads : c.comp.readsMemory = false) :
    ∃ m : Machine, (m.compute c).memory ≠ m.memory := by
  -- The result is the same whatever the cell holds, so the cell can be made to differ.
  generalize hout : c.comp.eval 0 0 0 = out
  generalize hcell : (0 : Word).toNat = cell
  have hlt : cell < memorySize := by rw [← hcell]; decide
  refine ⟨{ memory := Memory.blank.write cell (out + 1), a := 0, d := 0, pc := 0, steps := 0 }, ?_⟩
  intro hsame
  have hread := congrArg (Memory.read · cell) hsame
  simp only [Machine.compute, hwrites, if_true, hcell, Memory.read_write _ _ _ hlt] at hread
  rw [Comp.eval_eq_of_not_readsMemory hreads 0 0 _ 0, hout] at hread
  -- A word is not its own successor.
  bv_omega

/-- The fields of a computation say whether it uses memory. -/
theorem usesMemory_iff : c.UsesMemory ↔ c.touchesMemory = true := by
  rw [touchesMemory, Bool.or_eq_true]
  constructor
  · rintro (⟨a, d, held, held', hne⟩ | ⟨m, hne⟩)
    · left
      by_contra hreads
      exact hne (Comp.eval_eq_of_not_readsMemory (eq_false_of_ne_true hreads) a d held held')
    · right
      by_contra hwrites
      exact hne (by simp only [Machine.compute, if_neg hwrites])
  · intro htouches
    by_cases hreads : c.comp.readsMemory = true
    · exact Or.inl ⟨0, 1, 0, -1, Comp.eval_ne_of_readsMemory hreads⟩
    · have hwrites : c.writesM = true := htouches.resolve_left hreads
      exact Or.inr (exists_memory_ne hwrites (eq_false_of_ne_true hreads))

end Computation

namespace Image

variable {image : Image} {m m' after : Machine} {limit : Nat}

/-- The machine stands in front of a computation that uses memory, and its register
    A names no cell. -/
def OutOfReach (image : Image) (m : Machine) : Prop :=
  32768 ≤ m.a.toNat ∧ ∃ c, image.code[m.pc]? = some (.compute c) ∧ c.UsesMemory

/-- The machine after a number of steps, whatever comes of them. -/
def advance (image : Image) (n : Nat) (m : Machine) : Machine :=
  (fun m => (image.step m).1)^[n] m

/-- The machine has not halted, and its next step has its effect. -/
def Proceeds (image : Image) (m : Machine) : Prop :=
  image.isHalted m = false ∧ (image.step m).2 = none

section OneStep

/-- A machine without its cell faults. -/
theorem step_of_outOfReach (h : image.OutOfReach m) :
    image.step m = (m.count, some (.addressOutOfRange m.a)) := by
  rcases h with ⟨hcell, c, hword, huses⟩
  exact step_fault image m c hword (Computation.usesMemory_iff.mp huses) hcell

/-- Only such a machine faults. -/
theorem outOfReach_of_step {fault : Fault} (h : image.step m = (after, some fault)) :
    image.OutOfReach m := by
  rcases fault_of_step h with ⟨-, -, hcell, c, hword, htouches⟩
  exact ⟨hcell, c, hword, Computation.usesMemory_iff.mpr htouches⟩

theorem step_of_not_outOfReach (h : ¬image.OutOfReach m) : (image.step m).2 = none := by
  rcases hstep : image.step m with ⟨next, _ | fault⟩
  · rfl
  · exact absurd (outOfReach_of_step hstep) h

/-- A run from such a machine is over with its first step. -/
theorem run_of_outOfReach (h : image.OutOfReach m) (hlimit : 1 ≤ limit) :
    image.run limit m = (m.count, .error (.addressOutOfRange m.a)) := by
  have hgoes : image.isHalted m = false := by
    rcases h with ⟨-, c, hword, -⟩
    exact isHalted_eq_false hword
  cases limit with
  | zero => omega
  | succ fuel =>
      simp only [run, runFor, hgoes, Bool.false_eq_true, if_false, step_of_outOfReach h]

end OneStep

section Runs

/-- Reaching a machine is advancing to it, with as many steps as were counted. -/
theorem advance_of_reaches (h : image.Reaches m m') :
    ∃ taken, m'.steps = m.steps + taken ∧ image.advance taken m = m' ∧
      ∀ k < taken, image.Proceeds (image.advance k m) := by
  -- The steps are counted from the front, where the relation takes them off.
  induction h with
  | refl m => exact ⟨0, rfl, rfl, fun k hk => absurd hk (Nat.not_lt_zero k)⟩
  | step m next m' hgoes hstep _ ih =>
      rcases ih with ⟨taken, hsteps, hadvance, hproceeds⟩
      have hcount := steps_of_step hgoes hstep
      have hnext : ∀ k, image.advance (k + 1) m = image.advance k next := by
        intro k
        rw [advance, Function.iterate_succ_apply, hstep]
        rfl
      refine ⟨taken + 1, by omega, (hnext taken).trans hadvance, ?_⟩
      intro k hk
      cases k with
      | zero => exact ⟨hgoes, congrArg Prod.snd hstep⟩
      | succ k =>
          rw [hnext]
          exact hproceeds k (by omega)

/-- A run that faults has advanced to a machine without its cell, and has left it as
    it was. -/
theorem run_of_addressOutOfRange {address : Word}
    (h : image.run limit m = (after, .error (.addressOutOfRange address))) :
    ∃ taken, taken < limit ∧ (∀ k < taken, image.Proceeds (image.advance k m)) ∧
      after = (image.advance taken m).count ∧ after.steps = m.steps + (taken + 1) ∧
      image.OutOfReach (image.advance taken m) ∧ (image.advance taken m).a = address := by
  rcases hrun : image.runFor limit limit m with ⟨last, fault?⟩
  simp only [run, hrun] at h
  -- A run that halts or is cut short has another result.
  cases ends_runFor hrun with
  | halt => cases h
  | limit => cases h
  | fault hreach _ hfault hlt =>
      rcases advance_of_reaches hreach with ⟨taken, hsteps, rfl, hproceeds⟩
      rcases fault_of_step hfault with ⟨rfl, rfl, -, -⟩
      cases h
      refine ⟨taken, by omega, hproceeds, rfl, ?_, outOfReach_of_step hfault, rfl⟩
      show (image.advance taken m).steps + 1 = _
      omega

end Runs

end Image

/-- A memory fault leaves the machine at the computation that faulted. A machine that
    stands in front of a computation on memory and names no cell faults at its next
    step, and no other machine does. If a run faults at an address, all its steps but
    the last have had their effect, and the last had none, apart from being counted:
    the machine still stands in front of the computation, and its register A is the
    address. Every further step or run, however many came before it, ends in the same
    fault and is counted, and that is all. -/
theorem fault_leaves_machine (image : Image) :
    (∀ m, (image.OutOfReach m →
        image.step m = (m.count, some (.addressOutOfRange m.a))) ∧
      (¬image.OutOfReach m → (image.step m).2 = none)) ∧
    ∀ m limit after address,
      image.run limit m = (after, .error (.addressOutOfRange address)) →
      (∃ taken, taken < limit ∧ (∀ k < taken, image.Proceeds (image.advance k m)) ∧
        after = (image.advance taken m).count ∧ after.steps = m.steps + (taken + 1)) ∧
      image.OutOfReach after ∧ after.a = address ∧
      ∀ steps,
        image.step { after with steps := steps } =
          ({ after with steps := steps + 1 }, some (.addressOutOfRange address)) ∧
        ∀ n, 1 ≤ n → image.run n { after with steps := steps } =
          ({ after with steps := steps + 1 }, .error (.addressOutOfRange address)) := by
  refine ⟨fun m => ⟨Image.step_of_outOfReach, Image.step_of_not_outOfReach⟩, ?_⟩
  intro m limit after address hrun
  rcases Image.run_of_addressOutOfRange hrun with
    ⟨taken, hlt, hproceeds, hafter, hsteps, hreach, haddress⟩
  -- The number of steps has no part in what a machine stands in front of.
  have hstands : ∀ steps, image.OutOfReach { after with steps := steps } ∧ after.a = address := by
    rw [hafter]
    exact fun steps => ⟨hreach, haddress⟩
  refine ⟨⟨taken, hlt, hproceeds, hafter, hsteps⟩, (hstands after.steps).1,
    (hstands after.steps).2, ?_⟩
  intro steps
  rcases hstands steps with ⟨hreach, rfl⟩
  exact ⟨Image.step_of_outOfReach hreach, fun n hn => Image.run_of_outOfReach hreach hn⟩

/-- A computation that would change memory, both registers and the counter, on a
    register that names no cell. -/
def strayImage : Image :=
  { code := #[.load 1, .compute { dest := some .a, comp := .neg .a, jump := none },
      .compute { dest := some .amd, comp := .plusOne .m, jump := some .jmp }]
    symbols := .empty }

theorem fault_leaves_machine_strayImage :
    ∃ after, strayImage.run 5 .initial = (after, .error (.addressOutOfRange 65535)) ∧
      after = (strayImage.advance 2 .initial).count ∧ after.pc = 2 ∧
      strayImage.OutOfReach after ∧ after.a = 65535 ∧
      strayImage.step after = (after.count, some (.addressOutOfRange 65535)) ∧
      strayImage.run 9 after.count = (after.count.count, .error (.addressOutOfRange 65535)) := by
  rcases hrun : strayImage.run 5 .initial with ⟨after, result⟩
  cases (congrArg Prod.snd hrun : Except.error (.addressOutOfRange 65535) = result)
  have hsteps : after.steps = 3 := (congrArg (·.1.steps) hrun : 3 = after.steps).symm
  have hpc : after.pc = 2 := (congrArg (·.1.pc) hrun : 2 = after.pc).symm
  rcases (fault_leaves_machine strayImage).2 .initial 5 after 65535 hrun with
    ⟨⟨taken, -, -, hafter, htaken⟩, hreach, haddress, hagain⟩
  have htwo : taken = 2 := by
    rw [hsteps] at htaken
    have hzero : Machine.initial.steps = 0 := rfl
    omega
  subst htwo
  exact ⟨after, rfl, hafter, hpc, hreach, haddress, (hagain after.steps).1,
    (hagain after.count.steps).2 9 (by decide)⟩

end HackVM
