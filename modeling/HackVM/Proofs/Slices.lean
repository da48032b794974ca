import HackVM.Proofs.Execution

/-!
# Runs in Slices

Running for a while, and then for a while again.

A run ends in one of three ways. The machine halts, or it faults, or the limit is
reached while it could still go on. `Image.Ends` says for each of them where the
machine has got to and how many steps it took, in terms of `Reaches`, so that
nothing about a run has to be read off its loop again. A step that faults is
counted like any other, and so a fault comes strictly before the limit.

A run that reached its limit can be taken up where it stopped. Both runs together
are one run with the sum of the limits. The limit that a fault names is that of
the whole run, and is the one thing that differs besides the number of steps.

## Main definitions

* `Image.Ends`: How a run ends.
* `Fault.later`: A fault as it is reported by a longer run.

## Theorems

* `Image.ends_runFor`: A run ends in one of these ways.
* `Image.fault_of_step`: What a step faults for.
* `Image.runFor_later`: The limit shows in the fault that names it, and nowhere
  else.
* `Image.run_of_stepLimit`: A run at its limit has taken that many steps.
* `Image.run_of_ok`: A run that halts has reached a halt within its limit.
* `run_in_slices`: Two runs in a row are one run.
-/

namespace HackVM

/-- A fault as it is reported by a run that took some steps before. -/
def Fault.later (taken : Nat) : Fault → Fault
  | .addressOutOfRange address => .addressOutOfRange address
  | .stepLimit limit => .stepLimit (taken + limit)

namespace Image

variable {image : Image} {m m' after : Machine} {limit fuel : Nat}

/-- How a run ends that has some fuel. -/
inductive Ends (image : Image) (limit fuel : Nat) (m : Machine) : Machine → Option Fault → Prop
  /-- The machine halts. -/
  | halt {m' : Machine} : image.Reaches m m' → image.isHalted m' = true →
      m'.steps ≤ m.steps + fuel → Ends image limit fuel m m' none
  /-- A step faults, for which there was fuel. -/
  | fault {m' after : Machine} {fault : Fault} : image.Reaches m m' →
      image.isHalted m' = false → image.step m' = (after, some fault) →
      m'.steps < m.steps + fuel → Ends image limit fuel m after (some fault)
  /-- The machine goes on, but the fuel is used up. -/
  | limit {m' : Machine} : image.Reaches m m' → image.isHalted m' = false →
      m'.steps = m.steps + fuel → Ends image limit fuel m m' (some (.stepLimit limit))

/-- A step before the others uses one unit of fuel. -/
theorem Ends.step {next : Machine} {fault? : Option Fault} (hrun : image.isHalted m = false)
    (hstep : image.step m = (next, none)) (h : image.Ends limit fuel next after fault?) :
    image.Ends limit (fuel + 1) m after fault? := by
  have hcount := steps_of_step hrun hstep
  cases h with
  | halt hreach hhalted hle =>
      exact .halt (.step m next _ hrun hstep hreach) hhalted (by omega)
  | fault hreach hgoes hfault hlt =>
      exact .fault (.step m next _ hrun hstep hreach) hgoes hfault (by omega)
  | limit hreach hgoes heq =>
      exact .limit (.step m next _ hrun hstep hreach) hgoes (by omega)

/-- A run ends in one of the three ways. -/
theorem ends_runFor {fault? : Option Fault} (h : image.runFor limit fuel m = (after, fault?)) :
    image.Ends limit fuel m after fault? := by
  induction fuel generalizing m with
  | zero =>
      by_cases hrun : image.isHalted m = true
      · rw [runFor, if_pos hrun] at h
        cases h
        exact .halt (.refl _) hrun (Nat.le_add_right _ _)
      · rw [runFor, if_neg hrun] at h
        cases h
        exact .limit (.refl _) (Bool.not_eq_true _ ▸ hrun) rfl
  | succ fuel ih =>
      by_cases hrun : image.isHalted m = true
      · rw [runFor, if_pos hrun] at h
        cases h
        exact .halt (.refl _) hrun (Nat.le_add_right _ _)
      · have hgoes : image.isHalted m = false := Bool.not_eq_true _ ▸ hrun
        rcases hstep : image.step m with ⟨next, _ | fault⟩
        · rw [runFor_succ_of_step limit fuel hgoes hstep] at h
          exact (ih h).step hgoes hstep
        · simp only [runFor, if_neg hrun, hstep] at h
          cases h
          exact .fault (.refl _) hgoes hstep (by omega)

/-- A step faults for one reason only, and then it is counted and nothing else. -/
theorem fault_of_step {fault : Fault} (h : image.step m = (after, some fault)) :
    after = m.count ∧ fault = .addressOutOfRange m.a ∧ memorySize ≤ m.a.toNat ∧
      ∃ c, image.code[m.pc]? = some (.compute c) ∧ c.touchesMemory = true := by
  unfold step at h
  cases hword : image.code[m.pc]? with
  | none =>
      rw [hword] at h
      cases h
  | some word =>
      rw [hword] at h
      cases word with
      | load value => cases h
      | compute c =>
          simp only [Machine.fault?] at h
          by_cases hcell : (c.touchesMemory && decide (memorySize ≤ m.a.toNat)) = true
          · rw [if_pos hcell] at h
            cases h
            rw [Bool.and_eq_true, decide_eq_true_eq] at hcell
            exact ⟨rfl, rfl, hcell.2, c, rfl, hcell.1⟩
          · rw [if_neg hcell] at h
            cases h

/-- The limit of a run shows in the fault that names it, and nowhere else. -/
theorem runFor_later (image : Image) (taken limit fuel : Nat) (m : Machine) :
    image.runFor (taken + limit) fuel m =
      ((image.runFor limit fuel m).1, (image.runFor limit fuel m).2.map (Fault.later taken)) := by
  induction fuel generalizing m with
  | zero =>
      by_cases hrun : image.isHalted m = true
      · simp only [runFor, if_pos hrun, Option.map_none]
      · simp only [runFor, if_neg hrun, Option.map_some, Fault.later]
  | succ fuel ih =>
      by_cases hrun : image.isHalted m = true
      · simp only [runFor, if_pos hrun, Option.map_none]
      · cases hstep : image.step m with
        | mk next fault? =>
            cases fault? with
            | none => simp only [runFor, if_neg hrun, hstep, ih next]
            | some fault =>
                rw [(fault_of_step hstep).2.1] at hstep
                simp only [runFor, if_neg hrun, hstep, Option.map_some, Fault.later]

/-- A run at its limit has taken that many steps. -/
theorem run_of_stepLimit {reported : Nat}
    (h : image.run limit m = (m', .error (.stepLimit reported))) :
    reported = limit ∧ image.Reaches m m' ∧ m'.steps = m.steps + limit := by
  rcases hrun : image.runFor limit limit m with ⟨last, fault?⟩
  simp only [run, hrun] at h
  cases ends_runFor hrun with
  | halt => cases h
  | fault _ _ hfault _ =>
      -- The fault would be that of a step, which knows of no limit.
      cases (fault_of_step hfault).2.1
      cases h
  | limit hreach _ hsteps =>
      cases h
      exact ⟨rfl, hreach, hsteps⟩

/-- A run that halts has reached a halt within its limit. -/
theorem run_of_ok {taken : Nat} (h : image.run limit m = (m', .ok taken)) :
    image.Reaches m m' ∧ image.isHalted m' = true ∧ taken = m'.steps - m.steps ∧
      taken ≤ limit := by
  rcases hrun : image.runFor limit limit m with ⟨last, fault?⟩
  simp only [run, hrun] at h
  cases ends_runFor hrun with
  | halt hreach hhalted hsteps =>
      cases h
      exact ⟨hreach, hhalted, rfl, by omega⟩
  | fault => cases h
  | limit => cases h

/-- A run that reached its limit goes on as a run of its own. -/
theorem run_add_of_stepLimit {first : Nat} (second : Nat)
    (h : image.run first m = (m', .error (.stepLimit first))) :
    image.run (first + second) m = ((image.run second m').1,
      ((image.run second m').2.map (first + ·)).mapError (Fault.later first)) := by
  rcases run_of_stepLimit h with ⟨-, hreach, hsteps⟩
  -- The fuel that is left at the end of the first run is that of the second.
  have htaken : m'.steps - m.steps = first := by omega
  have hrun := runFor_of_reaches (first + second) hreach second
  rw [htaken, image.runFor_later first second second] at hrun
  rcases hsecond : image.runFor second second m' with ⟨last, fault?⟩
  simp only [run, hrun, hsecond]
  cases ends_runFor hsecond with
  | halt hreach' =>
      have hle := hreach'.steps_le
      have hsum : last.steps - m.steps = first + (last.steps - m'.steps) := by omega
      simp only [Option.map_none, hsum]
      rfl
  | fault => rfl
  | limit => rfl

end Image

/-- Two runs in a row are one run. If the first one reaches its limit, it has taken
    that many steps, and the second run ends in the machine in which a single run
    with both limits ends: it halts if the single run does, and then its steps are
    what is left of those of the single run; it reaches its limit if the single run
    does; and it faults at an address if the single run does. If the first run
    halts, it is within its limit, and a longer limit changes nothing. -/
theorem run_in_slices (image : Image) (m : Machine) (first second : Nat) :
    (∀ middle, image.run first m = (middle, .error (.stepLimit first)) →
      middle.steps = m.steps + first ∧
      (image.run (first + second) m).1 = (image.run second middle).1 ∧
      (∀ taken, (image.run second middle).2 = .ok taken ↔
        (image.run (first + second) m).2 = .ok (first + taken)) ∧
      ((image.run second middle).2 = .error (.stepLimit second) ↔
        (image.run (first + second) m).2 = .error (.stepLimit (first + second))) ∧
      ∀ address, (image.run second middle).2 = .error (.addressOutOfRange address) ↔
        (image.run (first + second) m).2 = .error (.addressOutOfRange address)) ∧
    ∀ last taken, image.run first m = (last, .ok taken) →
      taken ≤ first ∧ image.run (first + second) m = (last, .ok taken) := by
  constructor
  · intro middle hfirst
    refine ⟨(Image.run_of_stepLimit hfirst).2.2, ?_⟩
    rw [Image.run_add_of_stepLimit second hfirst]
    cases (image.run second middle).2 with
    | ok taken => simp [Except.map, Except.mapError]
    | error fault =>
        cases fault with
        | addressOutOfRange address => simp [Except.map, Except.mapError, Fault.later]
        | stepLimit limit => simp [Except.map, Except.mapError, Fault.later]
  · intro last taken hfirst
    rcases Image.run_of_ok hfirst with ⟨hreach, hhalted, rfl, hle⟩
    exact ⟨hle, Image.run_of_isHalted hreach hhalted (by omega)⟩

/-- A loop that is left after its second round. -/
def loopImage : Image :=
  { code := #[.load 2, .compute { dest := some .d, comp := .only .a, jump := none },
      .compute { dest := some .d, comp := .dMinusOne, jump := none }, .load 2,
      .compute { dest := none, comp := .d, jump := some .jgt }]
    symbols := .empty }

theorem run_in_slices_loopImage :
    ∃ middle last, loopImage.run 6 .initial = (middle, .error (.stepLimit 6)) ∧
      middle.steps = 6 ∧ loopImage.run 2 middle = (last, .ok 2) ∧
      loopImage.run 8 .initial = (last, .ok 8) ∧ loopImage.run 11 .initial = (last, .ok 8) := by
  rcases hfirst : loopImage.run 6 .initial with ⟨middle, result⟩
  cases (congrArg Prod.snd hfirst : Except.error (.stepLimit 6) = result)
  rcases hwhole : loopImage.run 8 .initial with ⟨last, result⟩
  cases (congrArg Prod.snd hwhole : Except.ok 8 = result)
  rcases (run_in_slices loopImage .initial 6 2).1 middle hfirst with ⟨hsteps, hlast, hok, -⟩
  rw [hwhole] at hlast hok
  refine ⟨middle, last, rfl, hsteps, ?_, rfl, ?_⟩
  · exact Prod.ext hlast.symm ((hok 2).mpr rfl)
  · exact ((run_in_slices loopImage .initial 8 3).2 last 8 hwhole).2

end HackVM
