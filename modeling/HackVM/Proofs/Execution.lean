import HackVM.Proofs.Layout

/-!
# Running a Fragment

How a machine gets from one end of a fragment to the other.

`Reaches` says where a machine can get in any number of steps, and it is what
fragments are composed by: a fragment inside a program does not halt at its
end, it hands over to whatever follows. A fragment may also fail on the way,
because a register names no cell, so the statement about a fragment is `Leads`,
which covers both: the machine reaches the end with a certain store, or it
comes to a step that faults. Where a fragment is to be left at its end and
nowhere else, the way is part of the statement, and `ReachesWithin` and
`LeadsWithin` say between which addresses it lies.

The store is what straight-line code works on, memory and the two registers.
`Store.run` executes instructions on a store alone, with neither a counter nor
an image, and `Image.leads_run` says that an image that holds the instructions
does the same. All statements about single fragments can therefore be
calculations with `Store.run`.

## Main definitions

* `Image.Reaches`, `Image.ReachesWithin`: Steps without a fault, anywhere or
  between two addresses.
* `Image.Faults`: Steps up to a fault.
* `Store`: Memory and registers.
* `Image.Leads`, `Image.LeadsWithin`: A fragment's end, or its fault.
* `Store.step`, `Store.run`: Straight-line execution.
* `Instruction.isStraight`: The instruction does not jump.

## Theorems

* `Image.Reaches.trans`, `Image.Reaches.steps_le`: Runs can be put together.
* `Image.ReachesWithin.unique`: A part of the code is left in one way only.
* `Image.runFor_of_reaches`: Reaching a machine is running up to it.
* `Image.run_of_isHalted`, `Image.run_of_faults`, `Image.run_of_lt_steps`: The
  three ways in which a run ends.
* `Image.LeadsWithin.bind`: Fragments can be put together.
* `Store.run_append`: So can straight-line executions.
* `Image.leadsWithin_run`, `Image.leads_run`: A fragment that an image holds is
  executed by its machine.
* `Image.reachesWithin_branch`, `Image.reaches_branch`: A jump goes where register
  A says, if it is taken.
-/

namespace HackVM

namespace Image

/-- The machine gets there, step by step, without a fault. -/
inductive Reaches (image : Image) : Machine → Machine → Prop
  | refl (m : Machine) : Reaches image m m
  | step (m m' m'' : Machine) : image.isHalted m = false → image.step m = (m', none) →
      Reaches image m' m'' → Reaches image m m''

/-- The machine gets there, and all it executes on the way lies from the first
    address on and in front of the last. -/
inductive ReachesWithin (image : Image) (first last : Nat) : Machine → Machine → Prop
  | refl (m : Machine) : ReachesWithin image first last m m
  | step (m m' m'' : Machine) : first ≤ m.pc → m.pc < last → image.isHalted m = false →
      image.step m = (m', none) → ReachesWithin image first last m' m'' →
      ReachesWithin image first last m m''

/-- The machine gets to a step that faults. -/
def Faults (image : Image) (m : Machine) (fault : Fault) : Prop :=
  ∃ m' after, image.Reaches m m' ∧ image.isHalted m' = false ∧
    image.step m' = (after, some fault)

variable {image : Image} {m m' m'' : Machine}

theorem Reaches.trans (h : image.Reaches m m') (h' : image.Reaches m' m'') :
    image.Reaches m m'' := by
  induction h with
  | refl m => exact h'
  | step m next m' hrun hstep _ ih => exact Reaches.step m next m'' hrun hstep (ih h')

section Within

variable {first last : Nat}

theorem ReachesWithin.reaches (h : image.ReachesWithin first last m m') : image.Reaches m m' := by
  induction h with
  | refl m => exact Reaches.refl m
  | step m next m' _ _ hrun hstep _ ih => exact Reaches.step m next m' hrun hstep ih

theorem ReachesWithin.trans (h : image.ReachesWithin first last m m')
    (h' : image.ReachesWithin first last m' m'') : image.ReachesWithin first last m m'' := by
  induction h with
  | refl m => exact h'
  | step m next m' hfirst hlast hrun hstep _ ih =>
      exact ReachesWithin.step m next m'' hfirst hlast hrun hstep (ih h')

/-- What is executed of a part is executed of the whole. -/
theorem ReachesWithin.mono {first' last' : Nat} (h : image.ReachesWithin first last m m')
    (hfirst : first' ≤ first) (hlast : last ≤ last') : image.ReachesWithin first' last' m m' := by
  induction h with
  | refl m => exact ReachesWithin.refl m
  | step m next m' hlow hhigh hrun hstep _ ih =>
      exact ReachesWithin.step m next m' (by omega) (by omega) hrun hstep ih

/-- A machine leaves a part of the code in one way only. -/
theorem ReachesWithin.unique (h : image.ReachesWithin first last m m')
    (h' : image.ReachesWithin first last m m'') (hend : last ≤ m'.pc) (hend' : last ≤ m''.pc) :
    m' = m'' := by
  induction h with
  | refl m =>
      cases h' with
      | refl => rfl
      | step _ _ _ _ hlast => omega
  | step m next m' _ hlast _ hstep _ ih =>
      cases h' with
      | refl => omega
      | step _ next' _ _ _ _ hstep' hrest =>
          -- A step is a function of the machine, so both go on from the same one.
          have hnext : next' = next := congrArg Prod.fst (hstep'.symm.trans hstep)
          exact ih (hnext ▸ hrest) hend

end Within

theorem Faults.of_reaches {fault : Fault} (h : image.Reaches m m') (h' : image.Faults m' fault) :
    image.Faults m fault := by
  rcases h' with ⟨last, after, hreach, hrun, hstep⟩
  exact ⟨last, after, h.trans hreach, hrun, hstep⟩

/-- A machine that has not halted has a word to execute. -/
theorem isHalted_eq_false {w : CodeWord} (h : image.code[m.pc]? = some w) :
    image.isHalted m = false := by
  rcases Array.getElem?_eq_some_iff.mp h with ⟨hlt, -⟩
  simp only [isHalted, decide_eq_false_iff_not]
  omega

/-- Every step is counted, whatever comes of it. -/
theorem steps_of_step {fault? : Option Fault} (hrun : image.isHalted m = false)
    (h : image.step m = (m', fault?)) : m'.steps = m.steps + 1 := by
  have hlt : m.pc < image.code.size := by
    simp only [isHalted, decide_eq_false_iff_not] at hrun
    omega
  have hcount : (image.step m).1.steps = m.steps + 1 := by
    unfold step
    rw [Array.getElem?_eq_getElem hlt]
    simp only []
    split
    · rfl
    · cases image.code[m.pc] <;> rfl
  rwa [h] at hcount

/-- A unit of fuel is a step. -/
theorem runFor_succ_of_step (limit fuel : Nat) (hrun : image.isHalted m = false)
    (h : image.step m = (m', none)) :
    image.runFor limit (fuel + 1) m = image.runFor limit fuel m' := by
  rw [runFor, hrun]
  simp only [Bool.false_eq_true, if_false, h]

theorem Reaches.steps_le (h : image.Reaches m m') : m.steps ≤ m'.steps := by
  induction h with
  | refl m => exact Nat.le_refl _
  | step m next m' hrun hstep _ ih =>
      have hcount := steps_of_step hrun hstep
      omega

/-- Reaching a machine is running up to it: a run with enough fuel goes on from
    there with what is left. -/
theorem runFor_of_reaches (limit : Nat) (h : image.Reaches m m') :
    ∀ fuel, image.runFor limit (m'.steps - m.steps + fuel) m = image.runFor limit fuel m' := by
  induction h with
  | refl m =>
      intro fuel
      rw [Nat.sub_self, Nat.zero_add]
  | step m next m' hrun hstep hrest ih =>
      intro fuel
      have hcount := steps_of_step hrun hstep
      have hle := hrest.steps_le
      have hfuel : m'.steps - m.steps + fuel = (m'.steps - next.steps + fuel) + 1 := by omega
      rw [hfuel, runFor_succ_of_step limit _ hrun hstep]
      exact ih fuel

/-- A machine that gets to a halt halts, within any limit that is not shorter. -/
theorem run_of_isHalted (h : image.Reaches m m') (hhalted : image.isHalted m' = true)
    {limit : Nat} (hlimit : m'.steps - m.steps ≤ limit) :
    image.run limit m = (m', .ok (m'.steps - m.steps)) := by
  have hrun := runFor_of_reaches limit h (limit - (m'.steps - m.steps))
  rw [Nat.add_sub_cancel' hlimit] at hrun
  -- Fuel that is left over is not used.
  have hend : ∀ fuel, image.runFor limit fuel m' = (m', none) := by
    intro fuel
    cases fuel with
    | zero => rw [runFor, if_pos hhalted]
    | succ fuel => rw [runFor, if_pos hhalted]
  simp only [run, hrun, hend]

/-- A machine that gets to a fault ends in it, within any limit that is not
    shorter. -/
theorem run_of_faults {fault : Fault} (h : image.Faults m fault) :
    ∃ after steps, ∀ limit, steps ≤ limit → image.run limit m = (after, .error fault) := by
  rcases h with ⟨last, after, hreach, hrunning, hstep⟩
  refine ⟨after, last.steps - m.steps + 1, fun limit hlimit => ?_⟩
  have hrun := runFor_of_reaches limit hreach (limit - (last.steps - m.steps + 1) + 1)
  have hfuel : last.steps - m.steps + (limit - (last.steps - m.steps + 1) + 1) = limit := by
    omega
  rw [hfuel, runFor, if_neg (by rw [hrunning]; exact Bool.false_ne_true), hstep] at hrun
  simp only [run, hrun]

/-- Fuel runs out on a machine that goes on for longer. The limit is part of the
    fault and stays as it is while fuel is used up. -/
theorem runFor_of_lt_steps (limit : Nat) (h : image.Reaches m m') :
    ∀ fuel, fuel < m'.steps - m.steps →
      ∃ after, image.runFor limit fuel m = (after, some (.stepLimit limit)) := by
  induction h with
  | refl m =>
      intro fuel hlt
      omega
  | step m next m' hrunning hstep hrest ih =>
      intro fuel hlt
      have hcount := steps_of_step hrunning hstep
      cases fuel with
      | zero => exact ⟨m, by rw [runFor, hrunning]; rfl⟩
      | succ fuel =>
          rcases ih fuel (by omega) with ⟨after, hafter⟩
          exact ⟨after, (runFor_succ_of_step limit fuel hrunning hstep).trans hafter⟩

/-- A machine that goes on for longer than a limit exceeds it. -/
theorem run_of_lt_steps (h : image.Reaches m m') {limit : Nat}
    (hlimit : limit < m'.steps - m.steps) :
    ∃ after, image.run limit m = (after, .error (.stepLimit limit)) := by
  rcases runFor_of_lt_steps limit h limit hlimit with ⟨after, hafter⟩
  exact ⟨after, by simp only [run, hafter]⟩

end Image

/-- Memory and the two registers. -/
structure Store where
  memory : Memory
  a : Word
  d : Word

/-- What straight-line code sees of a machine. -/
def Machine.store (m : Machine) : Store :=
  { memory := m.memory, a := m.a, d := m.d }

namespace Store

/-- The effect of a computation. -/
def compute (c : Computation) (s : Store) : Store :=
  let out := c.comp.eval s.a s.d (s.memory.read s.a.toNat)
  { memory := if c.writesM then s.memory.write s.a.toNat out else s.memory
    a := if c.writesA then out else s.a
    d := if c.writesD then out else s.d }

/-- The effect of an instruction, with the addresses that symbols stand for. -/
def step (address : String → Word) (s : Store) : Instruction → Except Fault Store
  | .load (.constant value) => .ok { s with a := value }
  | .load (.symbol name) => .ok { s with a := address name }
  | .compute c =>
      if c.touchesMemory && memorySize ≤ s.a.toNat then .error (.addressOutOfRange s.a)
      else .ok (s.compute c)
  | .label _ | .comment _ => .ok s

/-- The effect of instructions one after the other. -/
def run (address : String → Word) (code : List Instruction) (s : Store) : Except Fault Store :=
  code.foldlM (step address) s

theorem run_cons (address : String → Word) (i : Instruction) (code : List Instruction)
    (s : Store) : run address (i :: code) s = step address s i >>= run address code := rfl

theorem run_append (address : String → Word) (code rest : List Instruction) (s : Store) :
    run address (code ++ rest) s = run address code s >>= run address rest :=
  List.foldlM_append

end Store

/-- The instruction does not jump. -/
def Instruction.isStraight : Instruction → Bool
  | .compute c => c.jump.isNone
  | _ => true

namespace Image

/-- The address that a symbol of the image stands for. -/
def address (image : Image) (name : String) : Word :=
  (image.symbols.find? name).getD 0

/-- The machine gets to an address with a store, or to a fault. -/
def Leads (image : Image) (m : Machine) (target : Nat) : Except Fault Store → Prop
  | .ok s => ∃ m', image.Reaches m m' ∧ m'.store = s ∧ m'.pc = target
  | .error fault => image.Faults m fault

/-- The same, by nothing but what lies between two addresses. -/
def LeadsWithin (image : Image) (first last : Nat) (m : Machine) (target : Nat) :
    Except Fault Store → Prop
  | .ok s => ∃ m', image.ReachesWithin first last m m' ∧ m'.store = s ∧ m'.pc = target
  | .error fault => image.Faults m fault

variable {image : Image} {m m' : Machine} {code : List Instruction} {first last : Nat}

theorem LeadsWithin.leads {target : Nat} {outcome : Except Fault Store}
    (h : image.LeadsWithin first last m target outcome) : image.Leads m target outcome := by
  cases outcome with
  | ok s =>
      rcases h with ⟨m', hreach, hstore, hpc⟩
      exact ⟨m', hreach.reaches, hstore, hpc⟩
  | error fault => exact h

/-- What a machine leads to does not depend on the steps already made. -/
theorem LeadsWithin.of_reachesWithin {target : Nat} {outcome : Except Fault Store}
    (h : image.ReachesWithin first last m m')
    (h' : image.LeadsWithin first last m' target outcome) :
    image.LeadsWithin first last m target outcome := by
  cases outcome with
  | ok s =>
      rcases h' with ⟨m'', hreach, hstore, hpc⟩
      exact ⟨m'', h.trans hreach, hstore, hpc⟩
  | error fault => exact Faults.of_reaches h.reaches h'

/-- A fragment that goes on where another ends. -/
theorem LeadsWithin.bind {mid target : Nat} {outcome : Except Fault Store}
    {f : Store → Except Fault Store} (h : image.LeadsWithin first last m mid outcome)
    (hnext : ∀ m', m'.pc = mid → outcome = .ok m'.store →
      image.LeadsWithin first last m' target (f m'.store)) :
    image.LeadsWithin first last m target (outcome >>= f) := by
  cases outcome with
  | ok s =>
      rcases h with ⟨m', hreach, rfl, hpc⟩
      exact LeadsWithin.of_reachesWithin hreach (hnext m' hpc rfl)
  | error fault => exact h

/-- One straight instruction. -/
theorem leadsWithin_step {i : Instruction} (hexec : i.isExecutable = true)
    (hstraight : i.isStraight = true)
    (hword : ∃ w, i.word? image.symbols.find? = some w ∧ image.code[m.pc]? = some w)
    (hfirst : first ≤ m.pc) (hlast : m.pc < last) :
    image.LeadsWithin first last m (m.pc + 1) (m.store.step image.address i) := by
  rcases hword with ⟨w, hw, hcode⟩
  have hrun := isHalted_eq_false hcode
  have honce : ∀ m', image.step m = (m', none) → image.ReachesWithin first last m m' :=
    fun m' hstep => ReachesWithin.step m _ _ hfirst hlast hrun hstep (ReachesWithin.refl _)
  cases i with
  | load address =>
      cases address with
      | constant value =>
          cases hw
          exact ⟨_, honce _ (step_load image m value hcode), rfl, rfl⟩
      | symbol name =>
          rcases Option.map_eq_some_iff.mp hw with ⟨value, hfind, rfl⟩
          have haddress : image.address name = value := by
            rw [Image.address, hfind]
            rfl
          refine ⟨_, honce _ (step_load image m value hcode), ?_, rfl⟩
          rw [haddress]
          rfl
  | compute c =>
      cases hw
      have hjump : c.jump = none := Option.isNone_iff_eq_none.mp hstraight
      have hiff : (c.touchesMemory && decide (memorySize ≤ m.store.a.toNat)) = true ↔
          c.touchesMemory = true ∧ memorySize ≤ m.a.toNat := by
        rw [Bool.and_eq_true, decide_eq_true_eq]
        rfl
      rw [Store.step]
      by_cases hfault : c.touchesMemory = true ∧ memorySize ≤ m.a.toNat
      · -- The register names no cell, and this is the step that faults.
        rw [if_pos (hiff.mpr hfault)]
        exact ⟨m, m.count, Reaches.refl m, hrun, step_fault image m c hcode hfault.1 hfault.2⟩
      · rw [if_neg fun h => hfault (hiff.mp h)]
        have hcell : c.touchesMemory = true → m.a.toNat < memorySize := fun htouch =>
          Nat.lt_of_not_le fun hle => hfault ⟨htouch, hle⟩
        refine ⟨_, honce _ (step_compute image m c hcode hcell), rfl, ?_⟩
        show (if c.jumps _ then m.a.toNat else m.pc + 1) = m.pc + 1
        rw [Computation.jumps, hjump]
        rfl
  | label name => cases hexec
  | comment text => cases hexec

/-- A straight fragment that the image holds is executed by its machine, up to
    the end of the fragment and by nothing outside of it. -/
theorem leadsWithin_run (hheld : image.Holds m.pc code)
    (hstraight : ∀ i ∈ code, i.isStraight = true) (hfirst : first ≤ m.pc)
    (hlast : m.pc + codeSize code ≤ last) :
    image.LeadsWithin first last m (m.pc + codeSize code)
      (m.store.run image.address code) := by
  induction code generalizing m with
  | nil => exact ⟨m, ReachesWithin.refl m, rfl, rfl⟩
  | cons i code ih =>
      have hrest : ∀ j ∈ code, j.isStraight = true := fun j hj =>
        hstraight j (List.mem_cons_of_mem i hj)
      rw [codeSize_cons] at hlast
      rw [Store.run_cons, codeSize_cons]
      by_cases hi : i.isExecutable = true
      · rcases (holds_cons_of_isExecutable hi).mp hheld with ⟨hword, hheld⟩
        rw [if_pos hi] at hlast ⊢
        refine LeadsWithin.bind (leadsWithin_step hi (hstraight i List.mem_cons_self) hword hfirst
          (by omega)) ?_
        intro m' hpc _
        have hend : m.pc + (codeSize code + 1) = m'.pc + codeSize code := by omega
        rw [hend]
        exact ih (hpc ▸ hheld) hrest (by omega) (by omega)
      · -- Labels and comments have no word and no effect.
        rw [if_neg hi] at hlast ⊢
        cases i with
        | load address => exact absurd rfl hi
        | compute c => exact absurd rfl hi
        | label name => exact ih hheld.2 hrest hfirst hlast
        | comment text => exact ih hheld hrest hfirst hlast

/-- A straight fragment that the image holds is executed by its machine, up to
    the end of the fragment. -/
theorem leads_run (hheld : image.Holds m.pc code) (hstraight : ∀ i ∈ code, i.isStraight = true) :
    image.Leads m (m.pc + codeSize code) (m.store.run image.address code) :=
  (leadsWithin_run hheld hstraight (Nat.le_refl _) (Nat.le_refl _)).leads

/-- A jump on a condition that needs no memory goes where register A says if
    the condition holds, and on to the next instruction if it does not. -/
theorem reachesWithin_branch {comp : Comp} {jump : Jump} (hcomp : comp.readsMemory = false)
    (hheld : image.Holds m.pc (.branch comp jump :: code)) (hfirst : first ≤ m.pc)
    (hlast : m.pc < last) :
    ∃ m', image.ReachesWithin first last m m' ∧ m'.store = m.store ∧ m.steps < m'.steps ∧
      m'.pc = if jump.taken (comp.eval m.a m.d (m.memory.read m.a.toNat)) then m.a.toNat
        else m.pc + 1 := by
  rcases hheld with ⟨⟨w, hw, hcode⟩, -⟩
  cases hw
  have hcell : ({ dest := none, comp := comp, jump := some jump } : Computation).touchesMemory =
      true → m.a.toNat < memorySize := by
    intro htouch
    simp [Computation.touchesMemory, Computation.writesM, hcomp] at htouch
  refine ⟨_, ReachesWithin.step m _ _ hfirst hlast (isHalted_eq_false hcode)
    (step_compute image m _ hcode hcell) (ReachesWithin.refl _), rfl, ?_, rfl⟩
  show m.steps < m.steps + 1
  omega

/-- The same for a jump that may lead anywhere. -/
theorem reaches_branch {comp : Comp} {jump : Jump} (hcomp : comp.readsMemory = false)
    (hheld : image.Holds m.pc (.branch comp jump :: code)) :
    ∃ m', image.Reaches m m' ∧ m'.store = m.store ∧ m.steps < m'.steps ∧
      m'.pc = if jump.taken (comp.eval m.a m.d (m.memory.read m.a.toNat)) then m.a.toNat
        else m.pc + 1 := by
  rcases reachesWithin_branch hcomp hheld (Nat.le_refl _) (Nat.lt_succ_self _) with
    ⟨m', hreach, hrest⟩
  exact ⟨m', hreach.reaches, hrest⟩

end Image

end HackVM
