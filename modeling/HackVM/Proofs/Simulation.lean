import HackVM.Proofs.InPlace
import HackVM.Proofs.Placement

/-!
# Simulation of the Stack Machine

A compiled and assembled program does what its commands mean.

The stack machine executes one block at a step, and the machine follows it from
the code of one block to that of another. Following has to cover every way a
step can end: going on, halting, faulting, and a return that goes astray. A run
then follows by induction on the number of steps.

That alone would allow the machine to stand still while the stack machine runs
for ever, since blocks without code take no time. They are passed in order,
though, and every jump takes time, so the number of steps of the stack machine
is bounded by that of the machine and the number of blocks. A stack machine that
never stops therefore means a machine that exceeds every limit.

## Main definitions

* `At`: Both machines stand at the same place with the same memory.
* `Follows`: The machine follows the stack machine to an outcome.
* `Shows`: What a run of the machine shows of an outcome.

## Theorems

* `follows_perform`: The code of a command does what the command means.
* `follows_step`: The machine follows one step.
* `follows_run`: The machine follows any number of steps.
* `assembled_program_simulates`: A compiled and assembled program does what its
  commands mean.
-/

namespace HackVM

open StackMachine

/-- The machine stands where the stack machine does, with the same memory. -/
structure At (layout : Layout) (count : Nat) (s : State) (m : Machine) : Prop where
  memory : m.memory = s.memory
  le : s.block ≤ count
  inside : s.block < count → m.pc = layout.address s.block
  ended : s.block = count → layout.address count ≤ m.pc

/-- What the machine does while the stack machine comes to an outcome in a
    number of steps. The last condition of the first case bounds that number:
    between two steps of the machine the stack machine passes each block at
    most once. -/
def Follows (image : Image) (layout : Layout) (count : Nat) (m : Machine) (s : State) (n : Nat) :
    Outcome → Prop
  | .running s' => ∃ m', image.Reaches m m' ∧ At layout count s' m' ∧
      n + s.block ≤ (m'.steps - m.steps) * (count + 1) + s'.block
  | .halted memory => ∃ m', image.Reaches m m' ∧ image.isHalted m' = true ∧ m'.memory = memory
  | .faulted fault => image.Faults m fault
  | .astray address memory => ∃ m', image.Reaches m m' ∧ m'.pc = address.toNat ∧
      m'.memory = memory
  | .undeclared _ => False

/-- A block that is found at an address is there, or there is no block. -/
theorem blockAt?_eq_some {layout : Layout} {count address block : Nat}
    (h : layout.blockAt? count address = some block) :
    block < count ∧ layout.address block = address ∨
      block = count ∧ layout.address count ≤ address := by
  unfold Layout.blockAt? at h
  split at h
  · next hle =>
      cases h
      exact Or.inr ⟨rfl, hle⟩
  · have hfound := List.find?_some h
    exact Or.inl ⟨List.mem_range.mp (List.mem_of_find?_eq_some h), beq_iff_eq.mp hfound⟩

section Steps

variable {image : Image} {options : Options} {entries : List Entry} {blocks : List Block}
  {m : Machine} {s : State}

/-- Going on to the next block. -/
theorem follows_proceed {layout : Layout} {count : Nat} {outcome : Except Fault Memory}
    (hblock : s.block < count)
    (h : image.Arrives m 0 ((fun memory => (layout.address (s.block + 1), memory)) <$> outcome)) :
    Follows image layout count m s 1 (proceed s.block outcome) := by
  cases outcome with
  | error fault => exact h
  | ok memory =>
      rcases h with ⟨m', hreach, hpc, hmemory, -⟩
      have hended : s.block + 1 = count → layout.address count ≤ m'.pc := by
        intro heq
        rw [hpc, heq]
      refine ⟨m', hreach, ⟨hmemory, hblock, fun _ => hpc, hended⟩, ?_⟩
      show 1 + s.block ≤ _ + (s.block + 1)
      omega

/-- A step of the machine makes up for a jump backwards. -/
theorem one_add_le_of_lt {count block block' steps steps' : Nat} (hblock : block < count)
    (hsteps : steps + 1 ≤ steps') : 1 + block ≤ (steps' - steps) * (count + 1) + block' := by
  have hmul : 1 * (count + 1) ≤ (steps' - steps) * (count + 1) :=
    Nat.mul_le_mul_right (count + 1) (by omega)
  omega

/-- Going to a declared name. -/
theorem follows_jump (hplaced : Placed image options entries blocks) {name : String}
    {memory : Memory} (hblock : s.block < entries.length)
    (hname : ∃ other ∈ entries, other.declares? options = some name)
    (h : image.Arrives m 1 (.ok ((image.address name).toNat, memory))) :
    Follows image (image.layout blocks) entries.length m s 1
      (jump options entries name memory) := by
  rcases h with ⟨m', hreach, hpc, hmemory, hsteps⟩
  unfold jump
  cases hfind : entries.findIdx? fun entry => entry.declares? options == some name with
  | none =>
      rcases hname with ⟨other, hother, hdeclares⟩
      have hno := List.findIdx?_eq_none_iff.mp hfind other hother
      simp [hdeclares] at hno
  | some block =>
      -- Whichever block declares the name first, the name is its address.
      rcases List.findIdx?_eq_some_iff_getElem.mp hfind with ⟨hlt, hdeclares, -⟩
      have haddress := hplaced.toNat_address_of_declares? (List.getElem?_eq_getElem hlt)
        (beq_iff_eq.mp hdeclares)
      exact ⟨m', hreach, ⟨hmemory, Nat.le_of_lt hlt, fun _ => hpc.trans haddress,
        fun hend => absurd hend (Nat.ne_of_lt hlt)⟩, one_add_le_of_lt hblock hsteps⟩

/-- Going where a return leads. -/
theorem follows_leave {layout : Layout} {outcome : Except Fault (Word × Memory)}
    (hblock : s.block < entries.length)
    (h : image.Arrives m 1 ((fun result => (result.1.toNat, result.2)) <$> outcome)) :
    Follows image layout entries.length m s 1 (leave layout entries outcome) := by
  cases outcome with
  | error fault => exact h
  | ok result =>
      rcases result with ⟨address, memory⟩
      rcases h with ⟨m', hreach, hpc, hmemory, hsteps⟩
      unfold leave
      simp only []
      cases hfind : layout.blockAt? entries.length address.toNat with
      | none => exact ⟨m', hreach, hpc, hmemory⟩
      | some block =>
          have hprogress : 1 + s.block ≤
              (m'.steps - m.steps) * (entries.length + 1) + block :=
            one_add_le_of_lt hblock hsteps
          rcases blockAt?_eq_some hfind with ⟨hlt, haddress⟩ | ⟨rfl, haddress⟩
          · exact ⟨m', hreach, ⟨hmemory, Nat.le_of_lt hlt, fun _ => hpc.trans haddress.symm,
              fun hend => absurd hend (Nat.ne_of_lt hlt)⟩, hprogress⟩
          · exact ⟨m', hreach, ⟨hmemory, Nat.le_refl _, fun hlt => absurd hlt (Nat.lt_irrefl _),
              fun _ => hpc ▸ haddress⟩, hprogress⟩

/-- Calling a declared function. -/
theorem follows_call (hplaced : Placed image options entries blocks) {name label : String}
    {args : Word} {memory : Memory} (hblock : s.block < entries.length)
    (hname : ∃ other ∈ entries, other.declares? options = some name)
    (hlabel : (image.address label).toNat = blockAddress blocks (s.block + 1))
    (h : image.Arrives m 1 ((fun memory => ((image.address name).toNat, memory)) <$>
      memory.pushFrame (image.address label) args)) :
    Follows image (image.layout blocks) entries.length m s 1
      (call options (image.layout blocks) entries s.block name args memory) := by
  have haddress : BitVec.ofNat 16 ((image.layout blocks).address (s.block + 1)) =
      image.address label := by
    rw [show (image.layout blocks).address (s.block + 1) = _ from hlabel.symm,
      BitVec.ofNat_toNat, BitVec.setWidth_eq]
  unfold call
  rw [haddress]
  cases hpush : memory.pushFrame (image.address label) args with
  | error fault =>
      rw [hpush] at h
      exact h
  | ok after =>
      rw [hpush] at h
      exact follows_jump hplaced hblock hname h

/-- The code of a command does what the command means. -/
theorem follows_perform (hplaced : Placed image options entries blocks)
    (hmemory : m.memory = s.memory) (hblock : s.block < entries.length) {l : Line}
    {command : Command} {code : List Instruction} {ctx ctx' : Context}
    (hresult : l.parsed.result = .ok command) (hunit : ctx.unit = l.unit)
    (hfunction : ctx.function? = l.function?) (hlowers : Lowers options ctx command code ctx')
    (hheld : image.Holds m.pc code)
    (hnext : blockAddress blocks (s.block + 1) = m.pc + codeSize code)
    (htarget : ∀ name ∈ l.target? options,
      ∃ other ∈ entries, other.declares? options = some name) :
    Follows image (image.layout blocks) entries.length m s 1
      (perform options (image.layout blocks) entries l s command) := by
  have hknown := hplaced.known
  -- Most commands go on to the next block, which is behind their code.
  have hgo : ∀ {outcome : Except Fault Memory},
      image.Crosses m.pc (m.pc + codeSize code) m outcome →
      Follows image (image.layout blocks) entries.length m s 1 (proceed s.block outcome) := by
    intro outcome h
    rw [← hnext] at h
    exact follows_proceed hblock h.arrives
  cases hlowers with
  | push hbounds haccess =>
      rw [perform, ← hmemory, ← Line.staticSymbol_eq hunit]
      exact hgo (Image.crosses_push hknown hbounds haccess hheld)
  | pop hbounds haccess hcode =>
      rw [perform, ← hmemory, ← Line.staticSymbol_eq hunit]
      exact hgo (Image.crosses_pop hknown hbounds haccess hcode hheld)
  | inPlace hop hcode =>
      rw [perform, ← hmemory]
      exact hgo (Image.crosses_operation hknown hop hcode hheld)
  | compare hop _ =>
      rw [perform, ← hmemory]
      exact hgo (Image.crosses_compare hknown hop hheld)
  | label name =>
      rw [perform, ← hmemory]
      exact hgo ⟨m, Image.ReachesWithin.refl m, rfl, rfl⟩
  | goto name =>
      have hdeclared := htarget (l.symbol options name) (by simp [Line.target?, hresult])
      rw [Line.resolveLabel_eq_symbol options hfunction] at hheld
      rw [perform, ← hmemory]
      exact follows_jump hplaced hblock hdeclared (Image.arrives_goto hheld)
  | ifGoto name =>
      have hdeclared := htarget (l.symbol options name) (by simp [Line.target?, hresult])
      rw [Line.resolveLabel_eq_symbol options hfunction] at hheld hnext
      have harrives := Image.arrives_ifGoto hknown hheld
      rw [perform, ← hmemory]
      cases hpop : m.memory.pop with
      | error fault =>
          rw [hpop] at harrives
          exact harrives
      | ok top =>
          rcases top with ⟨value, memory⟩
          rw [hpop] at harrives
          have htaken : image.Arrives m 1 (.ok (if value = 0 then m.pc + codeSize (popToD ++
            [.atSymbol (l.symbol options name), .branch .d .jne])
              else (image.address (l.symbol options name)).toNat, memory)) := harrives
          simp only []
          by_cases hzero : value = 0
          · rw [if_pos hzero, ← hnext] at htaken
            rw [if_pos hzero]
            exact follows_proceed hblock (htaken.mono (Nat.zero_le 1))
          · rw [if_neg hzero] at htaken
            rw [if_neg hzero]
            exact follows_jump hplaced hblock hdeclared htaken
  | function name locals =>
      rw [perform, ← hmemory]
      exact hgo (Image.crosses_enter hknown hheld)
  | call hmint =>
      rename_i name label args
      have hdeclared := htarget name (by simp [Line.target?, hresult])
      rw [perform, ← hmemory]
      exact follows_call hplaced hblock hdeclared
        ((Image.toNat_address_of_holds_call hheld).trans hnext.symm)
        (Image.arrives_call hknown hheld)
  | ret =>
      rw [perform, ← hmemory]
      exact follows_leave hblock (Image.arrives_leave hknown hheld)

/-- One step of the stack machine is followed by the machine. -/
theorem follows_step (hplaced : Placed image options entries blocks)
    (hclosed : Closed options entries)
    (hat : At (image.layout blocks) entries.length s m) :
    Follows image (image.layout blocks) entries.length m s 1
      (step options (image.layout blocks) entries s) := by
  have hlength := hplaced.produces.length_eq
  unfold step
  cases hentry : entries[s.block]? with
  | none =>
      -- Behind the last block there are no words, so the machine has halted.
      have hle : entries.length ≤ s.block := List.getElem?_eq_none_iff.mp hentry
      have hpc : blockAddress blocks entries.length ≤ m.pc :=
        hat.ended (Nat.le_antisymm hat.le hle)
      refine ⟨m, Image.Reaches.refl m, ?_, hat.memory⟩
      simp only [Image.isHalted, decide_eq_true_eq, hplaced.size, ← hlength]
      exact hpc
  | some entry =>
      have hblock : s.block < entries.length := (List.getElem?_eq_some_iff.mp hentry).1
      have hmem : entry ∈ entries := List.mem_of_getElem? hentry
      rcases hplaced.exists_block hentry with ⟨block, hget, hproduces⟩
      have hpc : m.pc = blockAddress blocks s.block := hat.inside hblock
      have hheld := hplaced.holds_block hget
      have hnext := blockAddress_succ hget
      rw [← hpc] at hheld hnext
      cases entry with
      | start unit =>
          -- The start ends in a call, whose label stands behind the block.
          rcases hproduces.start_cases with ⟨label, hcode⟩
          rw [hcode] at hheld hnext
          have hlabel := Image.toNat_address_of_holds_call (Image.holds_append.mp hheld).2
          simp only []
          rw [← hat.memory]
          refine follows_call hplaced hblock (hclosed _ hmem _ rfl) ?_
            (Image.arrives_bootstrap hplaced.known hheld)
          rw [hlabel, hnext, Lowering.bootstrap, codeSize_append, Nat.add_assoc]
      | line l =>
          simp only []
          rcases hproduces.line_cases with ⟨cause, hresult, hcode⟩ |
            ⟨command, code, ctx, ctx', hresult, hcode, hunit, hfunction, hlowers⟩
          · -- A refused line has no code: the next block is at the same address.
            rw [hresult]
            rw [hcode, codeSize_nil, Nat.add_zero] at hnext
            exact follows_proceed hblock
              ⟨m, Image.Reaches.refl m, hnext.symm, hat.memory, Nat.le_refl _⟩
          · rw [hresult]
            rw [hcode] at hheld hnext
            exact follows_perform hplaced hat.memory hblock hresult hunit hfunction hlowers hheld
              hnext (hclosed _ hmem)

/-- What follows a run that is still going on. -/
theorem Follows.trans {layout : Layout} {count n n' : Nat} {m' : Machine} {s' : State}
    {outcome : Outcome} (hreach : image.Reaches m m')
    (hprogress : n + s.block ≤ (m'.steps - m.steps) * (count + 1) + s'.block)
    (h : Follows image layout count m' s' n' outcome) :
    Follows image layout count m s (n + n') outcome := by
  cases outcome with
  | running s'' =>
      rcases h with ⟨m'', hreach', hat, hprogress'⟩
      refine ⟨m'', hreach.trans hreach', hat, ?_⟩
      have hle := hreach.steps_le
      have hle' := hreach'.steps_le
      have hsteps : m''.steps - m.steps = (m'.steps - m.steps) + (m''.steps - m'.steps) := by
        omega
      rw [hsteps, Nat.add_mul]
      omega
  | halted memory =>
      rcases h with ⟨m'', hreach', hhalted, hmemory⟩
      exact ⟨m'', hreach.trans hreach', hhalted, hmemory⟩
  | faulted fault => exact Image.Faults.of_reaches hreach h
  | astray address memory =>
      rcases h with ⟨m'', hreach', hpc, hmemory⟩
      exact ⟨m'', hreach.trans hreach', hpc, hmemory⟩
  | undeclared name => exact h

/-- Any number of steps of the stack machine is followed by the machine. -/
theorem follows_run (hplaced : Placed image options entries blocks)
    (hclosed : Closed options entries) (n : Nat)
    (hat : At (image.layout blocks) entries.length s m) :
    Follows image (image.layout blocks) entries.length m s n
      (run options (image.layout blocks) entries n s) := by
  induction n generalizing s m with
  | zero => exact ⟨m, Image.Reaches.refl m, hat, by omega⟩
  | succ n ih =>
      have hstep := follows_step hplaced hclosed hat
      unfold run
      cases hnext : step options (image.layout blocks) entries s with
      | running s' =>
          rw [hnext] at hstep
          rcases hstep with ⟨m', hreach, hat', hprogress⟩
          rw [Nat.add_comm n 1]
          exact Follows.trans hreach hprogress (ih hat')
      | halted memory =>
          rw [hnext] at hstep
          exact hstep
      | faulted fault =>
          rw [hnext] at hstep
          exact hstep
      | astray address memory =>
          rw [hnext] at hstep
          exact hstep
      | undeclared name =>
          rw [hnext] at hstep
          exact hstep

end Steps

/-- What a run of the machine shows of an outcome of the stack machine. -/
def Shows (image : Image) (layout : Layout) (count : Nat) (m : Machine) : Outcome → Prop
  | .running s => ∃ m', image.Reaches m m' ∧ At layout count s m'
  | .halted memory => ∃ m' steps, m'.memory = memory ∧
      ∀ limit, steps ≤ limit → image.run limit m = (m', .ok steps)
  | .faulted fault => ∃ m' steps,
      ∀ limit, steps ≤ limit → image.run limit m = (m', .error fault)
  | .astray address memory => ∃ m', image.Reaches m m' ∧ m'.pc = address.toNat ∧
      m'.memory = memory
  | .undeclared _ => False

/-- What the machine follows, its runs show. -/
theorem Follows.shows {image : Image} {layout : Layout} {count n : Nat} {m : Machine} {s : State}
    {outcome : Outcome} (h : Follows image layout count m s n outcome) :
    Shows image layout count m outcome := by
  cases outcome with
  | running s' =>
      rcases h with ⟨m', hreach, hat, -⟩
      exact ⟨m', hreach, hat⟩
  | halted memory =>
      rcases h with ⟨m', hreach, hhalted, hmemory⟩
      exact ⟨m', m'.steps - m.steps, hmemory, fun limit hlimit =>
        Image.run_of_isHalted hreach hhalted hlimit⟩
  | faulted fault => exact Image.run_of_faults h
  | astray address memory => exact h
  | undeclared name => exact h

/-- A compiled and assembled program does what its commands mean. Started at the
    code of any block, with any memory, the machine comes to whatever the stack
    machine comes to after any number of steps, and it goes on for ever if the
    stack machine does. -/
theorem assembled_program_simulates {options : Options} {units : List (String × String)}
    {compilation : Compilation} {image : Image}
    (hunits : ∀ unit ∈ units, isName unit.1 = true)
    (hcompile : compileProgram options units = .ok compilation)
    (hassemble : assemble compilation.text = .ok image)
    (hclosed : Closed options (programEntries options units))
    (m : Machine) (block : Nat) (hblock : block ≤ (programEntries options units).length)
    (hpc : m.pc = blockAddress compilation.blocks.toList block) :
    let entries := programEntries options units
    let layout := image.layout compilation.blocks.toList
    let reference := fun n => run options layout entries n { block := block, memory := m.memory }
    (∀ n, Shows image layout entries.length m (reference n)) ∧
      ((∀ n, ∃ s, reference n = .running s) →
        ∀ limit, ∃ m', image.run limit m = (m', .error (.stepLimit limit))) := by
  intro entries layout reference
  have hplaced := placed_of_assemble hunits hcompile hassemble
  have hat : At layout entries.length { block := block, memory := m.memory } m := by
    refine ⟨rfl, hblock, fun _ => hpc, fun hend => ?_⟩
    have hend : block = entries.length := hend
    rw [hpc, hend]
    exact Nat.le_refl _
  have hfollows : ∀ n, Follows image layout entries.length m
      { block := block, memory := m.memory } n (reference n) :=
    fun n => follows_run hplaced hclosed n hat
  refine ⟨fun n => (hfollows n).shows, fun hforever limit => ?_⟩
  -- So many steps of the stack machine take more than the limit.
  rcases hforever ((limit + 2) * (entries.length + 1)) with ⟨s, hrunning⟩
  have hlong := hfollows ((limit + 2) * (entries.length + 1))
  rw [hrunning] at hlong
  rcases hlong with ⟨m', hreach, hat', hprogress⟩
  refine Image.run_of_lt_steps hreach ?_
  have hle := hat'.le
  by_contra hshort
  have hmul : (m'.steps - m.steps) * (entries.length + 1) ≤ limit * (entries.length + 1) :=
    Nat.mul_le_mul_right _ (by omega)
  have hsplit : (limit + 2) * (entries.length + 1) =
      limit * (entries.length + 1) + 2 * (entries.length + 1) := Nat.add_mul _ _ _
  omega

/-- The command of an entry. -/
def Entry.command? : Entry → Option Command
  | .start _ => none
  | .line l => l.parsed.result.toOption

section Running

variable {options : Options} {layout : Layout} {entries : List Entry} {s : State}

/-- A command is performed as it is on any line. -/
theorem step_of_commands {commands : List (Option Command)} {command : Command}
    {outcome : Outcome} (hcommands : entries.map Entry.command? = commands)
    (h : commands[s.block]? = some (some command))
    (hperform : ∀ l, perform options layout entries l s command = outcome) :
    step options layout entries s = outcome := by
  rw [← hcommands, List.getElem?_map, Option.map_eq_some_iff] at h
  rcases h with ⟨entry, hentry, hcommand⟩
  cases entry with
  | start unit => cases hcommand
  | line l =>
      cases hresult : l.parsed.result with
      | error cause => simp [Entry.command?, hresult, Except.toOption] at hcommand
      | ok other =>
          have heq : other = command := by
            simpa [Entry.command?, hresult, Except.toOption] using hcommand
          simp only [step, hentry, hresult, heq, hperform]

/-- A call with room for its frame goes to its function. -/
theorem call_eq_running {block target : Nat} {name : String} {args : Word} {memory after : Memory}
    (hframe : memory.pushFrame (BitVec.ofNat 16 (layout.address (block + 1))) args = .ok after)
    (htarget : entries.findIdx? (fun entry => entry.declares? options == some name) =
      some target) :
    call options layout entries block name args memory =
      .running { block := target, memory := after } := by
  rw [call, hframe]
  simp only [jump, htarget]

/-- A return to the address behind all blocks goes there. -/
theorem leave_eq_running {memory after : Memory}
    (hfits : layout.address entries.length < 65536)
    (hframe : memory.popFrame = .ok (BitVec.ofNat 16 (layout.address entries.length), after)) :
    leave layout entries memory.popFrame =
      .running { block := entries.length, memory := after } := by
  have haddress : layout.blockAt? entries.length
      (BitVec.ofNat 16 (layout.address entries.length)).toNat = some entries.length := by
    rw [BitVec.toNat_ofNat, Nat.mod_eq_of_lt hfits, Layout.blockAt?, if_pos (Nat.le_refl _)]
  rw [hframe]
  simp only [leave, haddress]

theorem run_succ_of_step {s' : State} (h : step options layout entries s = .running s') (n : Nat) :
    run options layout entries (n + 1) s = run options layout entries n s' := by
  rw [run, h]

end Running

/-- Two units, the second of which calls a function of the first and ends. -/
def negateUnits : List (String × String) :=
  [("Main", "function Main.negate 0\npush argument 0\nneg\nreturn"),
   ("Sys", "function Sys.init 0\npush constant 7\ncall Main.negate 1")]

/-- Labels are kept per function, and the program has a start. -/
def negateOptions : Options :=
  { echoSource := true, scopeLabels := true, bootstrap := true }

/-- The memory from the start of the program to the return. The caller has its
    bases again, and the result is where the argument was. -/
theorem negate_memory (first second : Word) :
    ∃ entered pushed called loaded negated after,
      (Memory.blank.write 0 256).pushFrame first 0 = .ok entered ∧
      entered.push 7 = .ok pushed ∧ pushed.pushFrame second 1 = .ok called ∧
      (∀ static, called.pushSegment static .arguments 0 = .ok loaded) ∧
      loaded.operate .neg = .ok negated ∧
      negated.popFrame = .ok (second, after) ∧
      after.read 0 = 262 ∧ after.read 1 = 261 ∧ after.read 2 = 256 ∧ after.read 261 = -7 := by
  have hstart : (Memory.blank.write 0 256).read 0 = BitVec.ofNat 16 256 :=
    Memory.read_write _ _ _ (by decide)
  rcases Memory.pushFrame_spec hstart (by decide) (by decide) first 0 with
    ⟨entered, henter, -, hsp, hlcl, harg, -⟩
  rcases Memory.push_spec hsp (by decide) (by decide) 7 with ⟨pushed, hpush, hsp', htop, hsame⟩
  rcases Memory.pushFrame_spec hsp' (by decide) (by decide) second 1 with
    ⟨called, hcall, hframe, hsp'', hlcl', harg', hsame'⟩
  -- The argument is the word that was pushed before the call.
  have hargument : called.read 261 = 7 := (hsame' 261 (by decide)).trans htop
  have hbase : called.read 2 = BitVec.ofNat 16 261 := harg'.trans (by decide)
  have hload : ∀ static, called.pushSegment static .arguments 0 = called.push 7 := by
    intro static
    have hcell : called.read 2 + 0 = BitVec.ofNat 16 261 := by rw [hbase]; rfl
    show called.fetch (called.read 2 + 0) >>= _ = _
    rw [hcell, Memory.fetch_ofNat _ (by decide), hargument]
    rfl
  rcases Memory.push_spec hsp'' (by decide) (by decide) 7 with
    ⟨loaded, hpush', hsp3, htop', hsame3⟩
  have hoperate : ∃ negated, loaded.operate .neg = .ok negated ∧
      negated.read 0 = BitVec.ofNat 16 268 ∧
      negated.read 267 = Operation.neg.combine (loaded.read 266) (loaded.read 267) ∧
      loaded.SameExcept [0, 267] negated :=
    Memory.operate_spec hsp3 (by decide) (by decide)
  rcases hoperate with ⟨negated, hneg, hsp4, hresult, hsame4⟩
  -- Neither the push nor the operation gets at the frame below.
  have hkept : ∀ cell, cell ∉ [0, 267] → negated.read cell = called.read cell :=
    fun cell hcell => (hsame4 cell hcell).trans (hsame3 cell hcell)
  have hframe' : negated.HasFrame 262 second pushed := by
    refine ⟨(hkept 262 (by decide)).trans hframe.1, fun base hbase => ?_⟩
    rw [← hframe.2 base hbase]
    refine hkept (262 + base) ?_
    simp only [List.mem_cons, List.not_mem_nil, or_false] at hbase ⊢
    omega
  rcases Memory.popFrame_spec hframe' ((hkept 1 (by decide)).trans hlcl')
    ((hkept 2 (by decide)).trans hbase) hsp4 (by decide) (by decide) (by decide) with
    ⟨after, hreturn, hbases, hsp5, hplaced, -⟩
  refine ⟨entered, pushed, called, loaded, negated, after, henter, hpush, hcall,
    fun static => (hload static).trans hpush', hneg, hreturn, hsp5, ?_, ?_, ?_⟩
  · rw [hbases 1 (by decide), hsame 1 (by decide), hlcl]
    rfl
  · rw [hbases 2 (by decide), hsame 2 (by decide), harg]
    rfl
  · rw [hplaced, hresult, htop']
    rfl

/-- The program comes to its end with the result on the stack, wherever its code
    is. -/
theorem run_negateUnits (layout : Layout) (hfits : layout.address 8 < 65536) :
    ∃ n memory, run negateOptions layout (programEntries negateOptions negateUnits) n
        { block := 0, memory := .blank } = .halted memory ∧
      memory.read 0 = 262 ∧ memory.read 1 = 261 ∧ memory.read 2 = 256 ∧
      memory.read 261 = -7 := by
  have hcommands : (programEntries negateOptions negateUnits).map Entry.command? =
      [none, some (.function "Main.negate" 0), some (.push .arguments 0), some (.arithmetic .neg),
        some .ret, some (.function "Sys.init" 0), some (.push .constant 7),
        some (.call "Main.negate" 1)] := by decide +kernel
  have hinit : (programEntries negateOptions negateUnits).findIdx?
      (fun entry => entry.declares? negateOptions == some "Sys.init") = some 5 := by
    decide +kernel
  have hnegate : (programEntries negateOptions negateUnits).findIdx?
      (fun entry => entry.declares? negateOptions == some "Main.negate") = some 1 := by
    decide +kernel
  have hlength : (programEntries negateOptions negateUnits).length = 8 := by
    rw [← List.length_map, hcommands]
    rfl
  have hstart : (programEntries negateOptions negateUnits)[0]? = some (.start "Main") := rfl
  generalize programEntries negateOptions negateUnits = entries at *
  rcases negate_memory (BitVec.ofNat 16 (layout.address 1)) (BitVec.ofNat 16 (layout.address 8))
    with ⟨entered, pushed, called, loaded, negated, after, henter, hpush, hcall, hload, hneg,
      hreturn, hreads⟩
  refine ⟨9, after, ?_, hreads⟩
  have h0 : step negateOptions layout entries ⟨0, .blank⟩ = .running ⟨5, entered⟩ := by
    rw [step, hstart]
    exact call_eq_running henter hinit
  have h5 : step negateOptions layout entries ⟨5, entered⟩ = .running ⟨6, entered⟩ :=
    step_of_commands hcommands rfl fun _ => rfl
  have h6 : step negateOptions layout entries ⟨6, entered⟩ = .running ⟨7, pushed⟩ :=
    step_of_commands hcommands rfl fun _ => congrArg (proceed 6) hpush
  have h7 : step negateOptions layout entries ⟨7, pushed⟩ = .running ⟨1, called⟩ :=
    step_of_commands hcommands rfl fun _ => call_eq_running hcall hnegate
  have h1 : step negateOptions layout entries ⟨1, called⟩ = .running ⟨2, called⟩ :=
    step_of_commands hcommands rfl fun _ => rfl
  have h2 : step negateOptions layout entries ⟨2, called⟩ = .running ⟨3, loaded⟩ :=
    step_of_commands hcommands rfl fun _ => congrArg (proceed 2) (hload _)
  have h3 : step negateOptions layout entries ⟨3, loaded⟩ = .running ⟨4, negated⟩ :=
    step_of_commands hcommands rfl fun _ => congrArg (proceed 3) hneg
  have h4 : step negateOptions layout entries ⟨4, negated⟩ = .running ⟨entries.length, after⟩ :=
    step_of_commands hcommands rfl fun _ =>
      leave_eq_running (by rwa [hlength]) (by rwa [hlength])
  have h8 : step negateOptions layout entries ⟨entries.length, after⟩ = .halted after := by
    rw [step, List.getElem?_eq_none (Nat.le_refl _)]
  rw [run_succ_of_step h0, run_succ_of_step h5, run_succ_of_step h6, run_succ_of_step h7,
    run_succ_of_step h1, run_succ_of_step h2, run_succ_of_step h3, run_succ_of_step h4, run, h8]

/-- The machine comes to its end with minus seven in the cell where the caller had
    put seven, on top of the stack, and with the bases of the caller. -/
theorem assembled_program_simulates_negateUnits :
    (∀ unit ∈ negateUnits, isName unit.1 = true) ∧
    Closed negateOptions (programEntries negateOptions negateUnits) ∧
    ∃ compilation image, compileProgram negateOptions negateUnits = .ok compilation ∧
      assemble compilation.text = .ok image ∧
      ∃ m steps, (∀ limit, steps ≤ limit → image.run limit Machine.initial = (m, .ok steps)) ∧
        m.memory.read 0 = 262 ∧ m.memory.read 1 = 261 ∧ m.memory.read 2 = 256 ∧
        m.memory.read 261 = -7 := by
  have hunits : ∀ unit ∈ negateUnits, isName unit.1 = true := by decide
  have hclosed : Closed negateOptions (programEntries negateOptions negateUnits) := by
    decide +kernel
  have hfacts : (compileProgram negateOptions negateUnits).toOption.any (fun compilation =>
      canAssemble compilation.instructions = true ∧
      blockAddress compilation.blocks.toList 8 < 65536) = true := by decide +kernel
  refine ⟨hunits, hclosed, ?_⟩
  rcases exists_ok_of_any hfacts with ⟨compilation, hcompile, hpassed⟩
  rcases of_decide_eq_true hpassed with ⟨hcan, hfits⟩
  rcases exists_assemble_of_canAssemble compilation.echoSource
    (printable_of_compileProgram hunits hcompile) hcan with ⟨image, hassemble⟩
  have hshows : ∀ n, Shows image (image.layout compilation.blocks.toList)
      (programEntries negateOptions negateUnits).length Machine.initial
      (run negateOptions (image.layout compilation.blocks.toList)
        (programEntries negateOptions negateUnits) n { block := 0, memory := .blank }) :=
    (assembled_program_simulates hunits hcompile hassemble hclosed Machine.initial 0
      (Nat.zero_le _) rfl).1
  -- The stack machine comes to its end, and the machine shows it.
  rcases run_negateUnits (image.layout compilation.blocks.toList) hfits with
    ⟨n, memory, hrun, hreads⟩
  have hend := hshows n
  rw [hrun] at hend
  rcases hend with ⟨m, steps, rfl, hends⟩
  exact ⟨compilation, image, hcompile, hassemble, m, steps, hends, hreads⟩

end HackVM
