import HackVM.Proofs.Fragments

/-!
# Code of a Command on the Machine

Where the machine is after the code of a command, and with what memory.

Most fragments end where the next one begins, and execution stays between their
two ends until then: the machine crosses them (`Image.Crosses`). The others jump,
and a jump is to the address of a label or to a word from the stack.
`Image.Arrives` is the common form of both: an address and a memory, or a fault.
It also counts steps, because a jump back to the same address is progress that
neither address nor memory shows.

An image that holds the labels of a comparison holds them at the ends of its two
halves, so the two ways through it meet behind it.

## Main definitions

* `Image.Arrives`: An address with a memory, or a fault.
* `Image.Crosses`: The end of a fragment with a memory, or a fault.

## Theorems

* `Image.Crosses.arrives`, `Image.Crosses.bind`: A fragment that is crossed, and two
  in a row.
* `Image.crosses_straight`, `Image.arrives_jump`: Code without a jump, and code
  that ends in one.
* `Image.crosses_push`, `Image.crosses_pop`, `Image.crosses_operation`,
  `Image.crosses_enter`: Commands without a jump.
* `Image.crosses_compare`: Comparisons.
* `Image.arrives_goto`, `Image.arrives_ifGoto`: Jumps to a label.
* `Image.arrives_call`, `Image.arrives_leave`: Calls and returns.
-/

namespace HackVM

open Instruction

namespace Image

/-- The machine gets to an address with a memory after some number of steps or
    more, or it gets to a fault. -/
def Arrives (image : Image) (m : Machine) (count : Nat) : Except Fault (Nat × Memory) → Prop
  | .ok (target, memory) => ∃ m', image.Reaches m m' ∧ m'.pc = target ∧ m'.memory = memory ∧
      m.steps + count ≤ m'.steps
  | .error fault => image.Faults m fault

/-- The machine gets to the end of a fragment with a memory, executing nothing
    outside of it on the way, or it gets to a fault. -/
def Crosses (image : Image) (first last : Nat) (m : Machine) : Except Fault Memory → Prop
  | .ok memory => ∃ m', image.ReachesWithin first last m m' ∧ m'.pc = last ∧ m'.memory = memory
  | .error fault => image.Faults m fault

variable {image : Image} {m m' : Machine} {code rest : List Instruction} {first last : Nat}

theorem Arrives.of_reaches {count : Nat} {outcome : Except Fault (Nat × Memory)}
    (h : image.Reaches m m') (h' : image.Arrives m' count outcome) :
    image.Arrives m count outcome := by
  cases outcome with
  | ok result =>
      rcases h' with ⟨last, hreach, hpc, hmemory, hsteps⟩
      have hle := h.steps_le
      exact ⟨last, h.trans hreach, hpc, hmemory, by omega⟩
  | error fault => exact Faults.of_reaches h h'

theorem Arrives.mono {count count' : Nat} {outcome : Except Fault (Nat × Memory)}
    (h : image.Arrives m count outcome) (hle : count' ≤ count) :
    image.Arrives m count' outcome := by
  cases outcome with
  | ok result =>
      rcases h with ⟨last, hreach, hpc, hmemory, hsteps⟩
      exact ⟨last, hreach, hpc, hmemory, by omega⟩
  | error fault => exact h

/-- A fragment with a known store in front of one that arrives. -/
theorem Leads.arrives {mid count : Nat} {outcome : Except Fault Store}
    (f : Store → Except Fault (Nat × Memory)) (h : image.Leads m mid outcome)
    (hnext : ∀ m', m'.pc = mid → outcome = .ok m'.store →
      image.Arrives m' count (f m'.store)) :
    image.Arrives m count (outcome >>= f) := by
  cases outcome with
  | ok s =>
      rcases h with ⟨m', hreach, rfl, hpc⟩
      exact Arrives.of_reaches hreach (hnext m' hpc rfl)
  | error fault => exact h

/-- What crosses a fragment arrives at its end. -/
theorem Crosses.arrives {outcome : Except Fault Memory} (h : image.Crosses first last m outcome) :
    image.Arrives m 0 ((fun memory => (last, memory)) <$> outcome) := by
  cases outcome with
  | ok memory =>
      rcases h with ⟨m', hreach, hpc, hmemory⟩
      exact ⟨m', hreach.reaches, hpc, hmemory, hreach.reaches.steps_le⟩
  | error fault => exact h

theorem Crosses.of_reachesWithin {outcome : Except Fault Memory}
    (h : image.ReachesWithin first last m m') (h' : image.Crosses first last m' outcome) :
    image.Crosses first last m outcome := by
  cases outcome with
  | ok memory =>
      rcases h' with ⟨m'', hreach, hpc, hmemory⟩
      exact ⟨m'', h.trans hreach, hpc, hmemory⟩
  | error fault => exact Faults.of_reaches h.reaches h'

/-- A fragment that ends there as well. -/
theorem Crosses.mono {first' : Nat} {outcome : Except Fault Memory}
    (h : image.Crosses first last m outcome) (hle : first' ≤ first) :
    image.Crosses first' last m outcome := by
  cases outcome with
  | ok memory =>
      rcases h with ⟨m', hreach, hpc, hmemory⟩
      exact ⟨m', hreach.mono hle (Nat.le_refl _), hpc, hmemory⟩
  | error fault => exact h

/-- A part with a known store in front of one that leads to the end. -/
theorem LeadsWithin.crosses {mid : Nat} {outcome : Except Fault Store}
    (f : Store → Except Fault Memory) (h : image.LeadsWithin first last m mid outcome)
    (hnext : ∀ m', m'.pc = mid → outcome = .ok m'.store →
      image.Crosses first last m' (f m'.store)) :
    image.Crosses first last m (outcome >>= f) := by
  cases outcome with
  | ok s =>
      rcases h with ⟨m', hreach, rfl, hpc⟩
      exact Crosses.of_reachesWithin hreach (hnext m' hpc rfl)
  | error fault => exact h

/-- A fragment is crossed when its parts are, one after the other. -/
theorem Crosses.bind {mid : Nat} {outcome : Except Fault Memory}
    {f : Memory → Except Fault Memory} (h : image.Crosses first mid m outcome)
    (hnext : ∀ m', m'.pc = mid → outcome = .ok m'.memory →
      image.Crosses mid last m' (f m'.memory)) (hfirst : first ≤ mid) (hlast : mid ≤ last) :
    image.Crosses first last m (outcome >>= f) := by
  cases outcome with
  | ok memory =>
      rcases h with ⟨m', hreach, hpc, rfl⟩
      exact Crosses.of_reachesWithin (hreach.mono (Nat.le_refl _) hlast)
        ((hnext m' hpc rfl).mono hfirst)
  | error fault => exact h

/-- Straight code ends behind itself. -/
theorem crosses_straight {outcome : Except Fault Memory} (hheld : image.Holds m.pc code)
    (hstraight : ∀ i ∈ code, i.isStraight = true)
    (hrun : Store.memory <$> m.store.run image.address code = outcome) (hfirst : first ≤ m.pc) :
    image.Crosses first (m.pc + codeSize code) m outcome := by
  rw [← hrun, ← bind_pure_comp]
  refine (leadsWithin_run hheld hstraight hfirst (Nat.le_refl _)).crosses _ ?_
  intro m' hpc _
  exact ⟨m', ReachesWithin.refl m', hpc, rfl⟩

/-- Straight code with a jump behind it ends where register A says. If this is the
    end of a fragment around it, the fragment is crossed. -/
theorem crosses_jump {outcome : Except Fault Memory} {target : Word}
    (hheld : image.Holds m.pc (code ++ jumpAlways :: rest))
    (hstraight : ∀ i ∈ code, i.isStraight = true)
    (hrun : (fun s => (s.a, s.memory)) <$> m.store.run image.address code =
      (fun memory => (target, memory)) <$> outcome)
    (hfirst : first ≤ m.pc) (hlast : m.pc + codeSize code < target.toNat) :
    image.Crosses first target.toNat m outcome := by
  rcases holds_append.mp hheld with ⟨hcode, hjump⟩
  have hmemory : outcome = m.store.run image.address code >>= fun s => pure s.memory := by
    have hsnd := congrArg (Functor.map Prod.snd) hrun
    rw [Functor.map_map, Functor.map_map, id_map'] at hsnd
    rw [bind_pure_comp]
    exact hsnd.symm
  rw [hmemory]
  refine (leadsWithin_run hcode hstraight hfirst (Nat.le_of_lt hlast)).crosses _ ?_
  intro m' hpc hstore
  -- The register was loaded with the target, whatever memory looks like now.
  have ha : m'.a = target := by
    rw [hstore] at hrun
    cases outcome with
    | ok memory => exact congrArg Prod.fst (Except.ok.inj hrun)
    | error fault => cases hrun
  rcases reachesWithin_branch rfl (hpc ▸ hjump) (Nat.le_trans hfirst (by omega))
    (hpc ▸ hlast) with ⟨after, hreach, hafter, -, htarget⟩
  refine ⟨after, hreach, ?_, congrArg Store.memory hafter⟩
  rw [htarget, ← ha]
  rfl

/-- Straight code with a jump behind it ends where register A says. -/
theorem arrives_jump {outcome : Except Fault (Word × Memory)}
    (hheld : image.Holds m.pc (code ++ jumpAlways :: rest))
    (hstraight : ∀ i ∈ code, i.isStraight = true)
    (hrun : (fun s => (s.a, s.memory)) <$> m.store.run image.address code = outcome) :
    image.Arrives m 1 ((fun result => (result.1.toNat, result.2)) <$> outcome) := by
  rcases holds_append.mp hheld with ⟨hcode, hjump⟩
  rw [← hrun, Functor.map_map, ← bind_pure_comp]
  refine (leads_run hcode hstraight).arrives _ ?_
  intro m' hpc _
  rcases reaches_branch rfl (hpc ▸ hjump) with ⟨after, hreach, hstore, hsteps, htarget⟩
  exact ⟨after, hreach, htarget, congrArg Store.memory hstore, hsteps⟩

/-- The names of the machine stand for its cells. -/
theorem KnowsMachine.addressing (h : image.KnowsMachine) : Addressing image.address := by
  have haddress : ∀ entry ∈ predefinedSymbols, image.address entry.1 = entry.2 := by
    intro entry hentry
    rw [address, h entry hentry]
    rfl
  exact
    { sp := haddress ("SP", 0) (by decide)
      lcl := haddress ("LCL", 1) (by decide)
      arg := haddress ("ARG", 2) (by decide)
      this := haddress ("THIS", 3) (by decide)
      that := haddress ("THAT", 4) (by decide)
      r13 := haddress ("R13", 13) (by decide)
      r14 := haddress ("R14", 14) (by decide) }

/-- A label that the image holds stands for the place it is held at. -/
theorem toNat_address_of_holds {base : Nat} {name : String}
    (hheld : image.Holds base (.label name :: code)) : (image.address name).toNat = base := by
  rcases Option.map_eq_some_iff.mp hheld.1 with ⟨value, hfind, hvalue⟩
  rw [address, hfind]
  exact hvalue

/-- The label of a call stands for the address behind its code. -/
theorem toNat_address_of_holds_call {base : Nat} {name label : String} {args : Word}
    (hheld : image.Holds base (Lowering.call name args label)) :
    (image.address label).toNat = base + codeSize (Lowering.call name args label) := by
  rw [Lowering.call_eq, codeSize_append]
  rw [Lowering.call_eq] at hheld
  exact toNat_address_of_holds (holds_append.mp hheld).2.2.2

section Commands

variable (hknown : image.KnowsMachine)

/-- A jump to a label leaves memory alone. -/
theorem arrives_goto {name : String} (hheld : image.Holds m.pc [atSymbol name, jumpAlways]) :
    image.Arrives m 1 (.ok ((image.address name).toNat, m.memory)) := by
  have hsplit : image.Holds m.pc ([atSymbol name] ++ jumpAlways :: []) := hheld
  exact arrives_jump hsplit (List.all_eq_true.mp rfl) rfl

include hknown

/-- A word of a segment is put on the stack. -/
theorem crosses_push {ctx : Context} {segment : Segment} {index : Word} {access : Access}
    (hbounds : Command.checkSegment segment index = .ok ())
    (haccess : Access.ofSegment ctx segment index = .ok access)
    (hheld : image.Holds m.pc access.push) :
    image.Crosses m.pc (m.pc + codeSize access.push) m
      (m.memory.pushSegment (image.address (ctx.staticSymbol index)) segment index) := by
  have hstraight : ∀ i ∈ access.push, i.isStraight = true := by
    cases access <;> exact List.all_eq_true.mp rfl
  exact crosses_straight hheld hstraight
    (Store.run_push hknown.addressing m.store hbounds haccess) (Nat.le_refl _)

/-- The topmost word is taken off the stack into a segment. -/
theorem crosses_pop {ctx : Context} {segment : Segment} {index : Word} {access : Access}
    (hbounds : Command.checkSegment segment index = .ok ())
    (haccess : Access.ofSegment ctx segment index = .ok access) (hcode : access.pop = .ok code)
    (hheld : image.Holds m.pc code) :
    image.Crosses m.pc (m.pc + codeSize code) m
      (m.memory.popSegment (image.address (ctx.staticSymbol index)) segment index) := by
  have hstraight : ∀ i ∈ code, i.isStraight = true := by
    cases access with
    | immediate value => cases hcode
    | _ =>
        cases hcode
        exact List.all_eq_true.mp rfl
  exact crosses_straight hheld hstraight
    (Store.run_pop hknown.addressing m.store hbounds haccess hcode) (Nat.le_refl _)

/-- An operation without a comparison works in place. -/
theorem crosses_operation {ctx ctx' : Context} {op : Operation} (hop : op.jump? = none)
    (hcode : Lowering.operation ctx op = .ok (code, ctx')) (hheld : image.Holds m.pc code) :
    image.Crosses m.pc (m.pc + codeSize code) m (m.memory.operate op) := by
  have hstraight : ∀ i ∈ code, i.isStraight = true := by
    cases op with
    | eq | gt | lt => cases hop
    | _ =>
        cases hcode
        exact List.all_eq_true.mp rfl
  exact crosses_straight hheld hstraight
    (Store.run_operation hknown.addressing m.store hop hcode) (Nat.le_refl _)

/-- A function begins by clearing its local variables. -/
theorem crosses_enter {name : String} {locals : Word}
    (hheld : image.Holds m.pc (Lowering.enter name locals)) :
    image.Crosses m.pc (m.pc + codeSize (Lowering.enter name locals)) m
      (m.memory.pushZeros locals.toNat) := by
  have hstraight : ∀ i ∈ Lowering.enter name locals, i.isStraight = true := by
    intro i hi
    rcases List.mem_cons.mp hi with rfl | hi
    · rfl
    · exact List.all_eq_true.mp rfl i (mem_pushZero_of_mem_flatten hi)
  exact crosses_straight hheld hstraight (Store.run_pushZeros hknown.addressing m.store _)
    (Nat.le_refl _)

/-- A conditional jump takes a word off the stack whichever way it goes. -/
theorem arrives_ifGoto {name : String}
    (hheld : image.Holds m.pc (popToD ++ [atSymbol name, .branch .d .jne])) :
    image.Arrives m 1 ((fun top => (if top.1 = 0 then
        m.pc + codeSize (popToD ++ [atSymbol name, .branch .d .jne])
      else (image.address name).toNat, top.2)) <$> m.memory.pop) := by
  -- Up to the jump the code is straight, and then D and A are known.
  have hsplit : image.Holds m.pc ((popToD ++ [atSymbol name]) ++ [.branch .d .jne]) := hheld
  rcases holds_append.mp hsplit with ⟨hcode, hbranch⟩
  have hrun : m.store.run image.address (popToD ++ [atSymbol name]) =
      (fun top => ⟨top.2, image.address name, top.1⟩) <$> m.memory.pop := by
    simp [Store.run_append, Store.run_popToD hknown.addressing, Machine.store]
  have hleads := leads_run hcode (List.all_eq_true.mp rfl)
  rw [hrun] at hleads
  have harrives : image.Arrives m 1 _ := hleads.arrives (fun s => pure
    (if s.d = 0 then m.pc + codeSize (popToD ++ [atSymbol name]) + 1 else s.a.toNat, s.memory)) ?_
  · have hend : m.pc + codeSize (popToD ++ [atSymbol name, .branch .d .jne]) =
        m.pc + codeSize (popToD ++ [atSymbol name]) + 1 := rfl
    simpa [hend] using harrives
  · intro m' hpc _
    rcases reaches_branch rfl (hpc ▸ hbranch) with ⟨after, hreach, hstore, hsteps, htarget⟩
    refine ⟨after, hreach, ?_, congrArg Store.memory hstore, hsteps⟩
    rw [htarget]
    by_cases hzero : m'.d = 0#16
    · simp [Machine.store, Jump.taken, hpc, hzero]
    · simp [Machine.store, Jump.taken, hzero]

/-- The two ways through a comparison meet behind it. -/
theorem crosses_choice {jump : Jump} {labels : ComparisonLabels}
    (ha : m.a = image.address labels.ifTrue)
    (hheld : image.Holds m.pc (Lowering.choice jump labels)) (hfirst : first ≤ m.pc) :
    image.Crosses first (m.pc + codeSize (Lowering.choice jump labels)) m
      (m.memory.put (m.memory.read 0 - 1) (Operation.truth (jump.taken m.d))) := by
  have hsize : codeSize (Lowering.choice jump labels) = 9 := rfl
  have hlast : m.pc < m.pc + 9 := by omega
  rw [hsize]
  rcases reachesWithin_branch rfl hheld hfirst hlast with ⟨m', hreach, hstore, -, htarget⟩
  have hmemory : m'.memory = m.memory := congrArg Store.memory hstore
  rcases holds_append.mp hheld.2 with ⟨-, hjump⟩
  have htrue := hjump.2
  have hfinish := (holds_append.mp htrue.2).2
  refine Crosses.of_reachesWithin hreach ?_
  rw [← hmemory]
  by_cases htaken : jump.taken m.d = true
  · -- The jump leads to the label in front of the second half.
    have hpc : m'.pc = m.pc + 6 := by
      rw [htarget, Comp.eval, if_pos htaken, ha, toNat_address_of_holds htrue]
      rfl
    have hhalf : image.Holds m'.pc (Lowering.transform .negOne ++ [.label labels.finish]) :=
      hpc ▸ htrue.2
    have hend : m.pc + 9 =
        m'.pc + codeSize (Lowering.transform .negOne ++ [.label labels.finish]) := by
      rw [hpc]
      rfl
    rw [htaken, hend]
    refine crosses_straight hhalf (List.all_eq_true.mp rfl) ?_ (by omega)
    rw [Store.view_run_append pure fun _ => rfl, bind_pure]
    exact Store.run_transform hknown.addressing m'.store fun _ _ _ => rfl
  · -- The first half ends in a jump behind the second.
    have hpc : m'.pc = m.pc + 1 := by
      rw [htarget, Comp.eval, if_neg htaken]
    have hhalf : image.Holds m'.pc _ := hpc ▸ hheld.2
    have hend : m.pc + 9 = (image.address labels.finish).toNat := by
      rw [toNat_address_of_holds hfinish]
      rfl
    rw [Bool.not_eq_true _ |>.mp htaken, hend]
    refine crosses_jump hhalf (List.all_eq_true.mp rfl) ?_ (by omega) ?_
    · rw [Store.view_run_append (fun memory => pure (image.address labels.finish, memory))
        fun _ => rfl, Store.run_transform hknown.addressing m'.store fun _ _ _ => rfl,
        bind_pure_comp]
      rfl
    · have hjumps : codeSize (Lowering.transform .zero ++ [atSymbol labels.finish]) = 4 := rfl
      omega

/-- A comparison stores its truth value whichever way it goes. -/
theorem crosses_compare {op : Operation} {jump : Jump} {labels : ComparisonLabels}
    (hop : op.jump? = some jump) (hheld : image.Holds m.pc (Lowering.compare jump labels)) :
    image.Crosses m.pc (m.pc + codeSize (Lowering.compare jump labels)) m
      (m.memory.operate op) := by
  rw [Lowering.compare_eq] at hheld ⊢
  rcases holds_append.mp hheld with ⟨hcode, hchoice⟩
  rw [codeSize_append, ← Nat.add_assoc]
  have hleads := leadsWithin_run hcode (List.all_eq_true.mp rfl) (Nat.le_refl _)
    (Nat.le_add_right _ (codeSize (Lowering.choice jump labels)))
  rw [Store.run_subtract hknown.addressing] at hleads
  rw [m.memory.operate_of_jump? hop]
  have hcrosses := hleads.crosses (fun s =>
    s.memory.put (s.memory.read 0 - 1) (Operation.truth (jump.taken s.d))) ?_
  · simpa [Machine.store] using hcrosses
  · intro m' hpc houtcome
    rw [← hpc]
    refine crosses_choice hknown ?_ (hpc ▸ hchoice) (by omega)
    -- The last thing that subtracting does is to load the label.
    rcases bind_eq_ok_iff.mp houtcome with ⟨top, -, hfetch⟩
    rcases bind_eq_ok_iff.mp hfetch with ⟨x, -, hstore⟩
    exact congrArg Store.a (Except.ok.inj hstore).symm

/-- A call saves a frame and goes to the function. -/
theorem arrives_call {name label : String} {args : Word}
    (hheld : image.Holds m.pc (Lowering.call name args label)) :
    image.Arrives m 1 ((fun memory => ((image.address name).toNat, memory)) <$>
      m.memory.pushFrame (image.address label) args) := by
  have hcode : Lowering.call name args label =
      (Lowering.saveFrame args label ++ [atSymbol name]) ++ jumpAlways :: [.label label] := by
    rw [Lowering.call_eq, List.append_assoc]
    rfl
  rw [hcode] at hheld
  have hrun : (fun s => (s.a, s.memory)) <$>
      m.store.run image.address (Lowering.saveFrame args label ++ [atSymbol name]) =
        (fun memory => (image.address name, memory)) <$>
          m.memory.pushFrame (image.address label) args := by
    rw [Store.view_run_append (fun memory => pure (image.address name, memory)) fun _ => rfl,
      Store.run_saveFrame hknown.addressing, bind_pure_comp]
    rfl
  have harrives := arrives_jump hheld (List.all_eq_true.mp rfl) hrun
  rwa [Functor.map_map] at harrives

/-- A return restores a frame and goes to the address that was saved. -/
theorem arrives_leave (hheld : image.Holds m.pc Lowering.leave) :
    image.Arrives m 1 ((fun result => (result.1.toNat, result.2)) <$> m.memory.popFrame) := by
  rw [Lowering.leave_eq] at hheld
  exact arrives_jump hheld (List.all_eq_true.mp rfl) (Store.run_restoreFrame hknown.addressing _)

/-- The start of a program puts the stack at its place and calls. -/
theorem arrives_bootstrap {label : String}
    (hheld : image.Holds m.pc (Lowering.bootstrap label)) :
    image.Arrives m 1 ((fun memory => ((image.address "Sys.init").toNat, memory)) <$>
      (m.memory.write 0 256).pushFrame (image.address label) 0) := by
  rcases holds_append.mp hheld with ⟨hcode, hcall⟩
  have hrun : m.store.run image.address [atConstant 256, assign .d (.only .a), atSymbol "SP",
      assign .m .d] = pure ⟨m.memory.write 0 256, 0, 256⟩ := by
    simp (disch := decide) [hknown.addressing.sp, Machine.store]
  have hleads := leads_run hcode (List.all_eq_true.mp rfl)
  rw [hrun] at hleads
  rcases hleads with ⟨m', hreach, hstore, hpc⟩
  have hmemory : m'.memory = m.memory.write 0 256 := congrArg Store.memory hstore
  refine Arrives.of_reaches hreach ?_
  rw [← hmemory]
  exact arrives_call hknown (hpc ▸ hcall)

end Commands

end Image

end HackVM
