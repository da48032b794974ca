import HackVM.Proofs.Frame

/-!
# Moving Words between Segments

A push and a pop right behind it are an assignment.

The word goes by way of the stack, and it leaves traces there: the free cell
above the stack holds it afterwards, and cell 13 holds the address of the target
if the target had to be staged. The stack pointer goes up and comes down again.
Any of these cells can also be the target itself, or lie in a segment that has
its base there, and cell 13 can be the source. What memory looks like in the end
is therefore said by writes in a certain order, of which the one to the target
is the last, and this is true however the cells overlap.

The source is read before anything is written. A base is read later, by the pop,
but the bases lie below the stack and no push gets at them.

## Main definitions

* `Segment.hasBase`: The segments that begin where a base points.
* `Memory.segmentValue`: What a push finds.
* `Memory.stage`, `Memory.assign`: What an assignment writes.

## Theorems

* `Memory.write_write`, `Memory.write_comm`, `Memory.write_of_read`: Writing twice.
* `Memory.pushSegment_bind_popSegment`: Pushing and popping is assigning.
* `exists_lower_push`, `exists_lower_pop`: A command within its bounds has code.
* `push_pop_assigns`: The code of a push and a pop assigns.
-/

namespace HackVM

/-- The segment begins where a base cell points. -/
def Segment.hasBase : Segment → Bool
  | .locals | .arguments | .this | .that => true
  | _ => false

namespace Memory

section Writes

variable (memory : Memory) {cell other : Nat}

/-- The second of two writes to a cell counts. -/
theorem write_write (cell : Nat) (value value' : Word) :
    (memory.write cell value).write cell value' = memory.write cell value' := by
  rw [write, write, Vector.setIfInBounds_setIfInBounds]
  rfl

/-- Writes to different cells do not get in each other's way. -/
theorem write_comm (h : cell ≠ other) (value value' : Word) :
    (memory.write cell value).write other value' =
      (memory.write other value').write cell value := by
  refine congrArg Memory.mk (Vector.ext fun i hi => ?_)
  simp only [write, Vector.getElem_setIfInBounds]
  by_cases hcell : cell = i
  · have hother : other ≠ i := fun hother => h (hcell.trans hother.symm)
    simp [hcell, hother]
  · simp [hcell]

/-- Writing what is there already does nothing. -/
theorem write_of_read {value : Word} (h : memory.read cell = value) :
    memory.write cell value = memory := by
  refine congrArg Memory.mk (Vector.ext fun i hi => ?_)
  simp only [Vector.getElem_setIfInBounds]
  by_cases hcell : cell = i
  · subst hcell
    rw [if_pos rfl, ← h, read, Vector.getElem?_eq_getElem hi]
    rfl
  · rw [if_neg hcell]

end Writes

/-- The word that a push finds in a segment. -/
def segmentValue (memory : Memory) (static : Word) (segment : Segment) (index : Word) : Word :=
  match segment with
  | .constant => index
  | _ => memory.read (memory.segmentCell static segment index).toNat

/-- The address of the target waits in cell 13 if its segment has a base. -/
def stage (memory : Memory) (segment : Segment) (target : Word) : Memory :=
  if segment.hasBase then memory.write 13 target else memory

/-- The writes of an assignment in their order: the word above the stack of `p`
    cells, the address of the target if it is staged, and the word in its target. -/
def assign (memory : Memory) (p : Nat) (segment : Segment) (target value : Word) : Memory :=
  ((memory.write p value).stage segment target).write target.toNat value

section Assigning

variable {memory : Memory} {p : Nat} {static : Word} {segment : Segment} {index target : Word}

theorem read_stage {cell : Nat} (h : cell ≠ 13) :
    (memory.stage segment target).read cell = memory.read cell := by
  unfold stage
  split
  · exact read_write_of_ne _ _ _ _ h.symm
  · rfl

theorem write_stage {cell : Nat} (h : cell ≠ 13) (value : Word) :
    (memory.write cell value).stage segment target =
      (memory.stage segment target).write cell value := by
  unfold stage
  split
  · exact write_comm _ h _ _
  · rfl

/-- The target holds the word in the end. -/
theorem read_assign {value : Word} (h : target.toNat < memorySize) :
    (memory.assign p segment target value).read target.toNat = value :=
  read_write _ _ _ h

/-- A cell that is none of the three holds what it held. -/
theorem read_assign_of_ne {cell : Nat} {value : Word} (hp : cell ≠ p) (hstage : cell ≠ 13)
    (htarget : cell ≠ target.toNat) :
    (memory.assign p segment target value).read cell = memory.read cell := by
  rw [assign, read_write_of_ne _ _ _ _ htarget.symm, read_stage hstage,
    read_write_of_ne _ _ _ _ hp.symm]

theorem segmentValue_of_ne_constant (h : segment ≠ .constant) :
    memory.segmentValue static segment index =
      memory.read (memory.segmentCell static segment index).toNat := by
  cases segment with
  | constant => exact absurd rfl h
  | _ => rfl

/-- A push is that of a word if the word is there. -/
theorem pushSegment_eq_push
    (h : segment ≠ .constant → (memory.segmentCell static segment index).toNat < memorySize) :
    memory.pushSegment static segment index =
      memory.push (memory.segmentValue static segment index) := by
  by_cases hconstant : segment = .constant
  · rw [hconstant]
    rfl
  · have hfetch : memory.fetch (memory.segmentCell static segment index) =
        .ok (memory.read (memory.segmentCell static segment index).toNat) :=
      if_pos (h hconstant)
    have hpush : memory.pushSegment static segment index =
        memory.fetch (memory.segmentCell static segment index) >>= memory.push := by
      cases segment with
      | constant => exact absurd rfl hconstant
      | _ => rfl
    rw [hpush, hfetch, segmentValue_of_ne_constant hconstant]
    rfl

/-- A pop stages its target, takes a word off the stack and stores it. -/
theorem popSegment_eq_bind (memory : Memory) (static : Word) (segment : Segment) (index : Word) :
    memory.popSegment static segment index =
      (memory.stage segment (memory.segmentCell static segment index)).pop >>= fun top =>
        top.2.put (memory.segmentCell static segment index) top.1 := by
  cases segment <;> rfl

/-- Where a word of a segment lies depends on the bases only. -/
theorem segmentCell_write {cell : Nat} (h : cell = 0 ∨ 4 < cell) (value : Word) :
    (memory.write cell value).segmentCell static segment index =
      memory.segmentCell static segment index := by
  cases segment with
  | locals | arguments | this | that =>
      simp (disch := omega) only [segmentCell, read_write_of_ne]
  | _ => rfl

/-- A pop into a cell that exists, where the stack pointer is known. -/
theorem popSegment_eq_ok (hsp : memory.read 0 = BitVec.ofNat 16 (p + 1)) (hlow : 13 < p)
    (hp : p < memorySize)
    (htarget : (memory.segmentCell static segment index).toNat < memorySize) :
    memory.popSegment static segment index =
      .ok (((memory.stage segment (memory.segmentCell static segment index)).write 0
        (BitVec.ofNat 16 p)).write (memory.segmentCell static segment index).toNat
        (memory.read p)) := by
  rw [popSegment_eq_bind, pop_eq_ok ((read_stage (by decide)).trans hsp) (by omega) hp,
    read_stage (by omega)]
  exact if_pos htarget

/-- Pushing a word and popping it is assigning it. The target is where it lies
    before the push, and it may be any cell, those of the stack and of the bases
    included. -/
theorem pushSegment_bind_popSegment {static' index' : Word} {source : Segment}
    (hsp : memory.read 0 = BitVec.ofNat 16 p) (hlow : 13 < p) (hp : p < memorySize)
    (hsource : source ≠ .constant →
      (memory.segmentCell static' source index').toNat < memorySize)
    (htarget : (memory.segmentCell static segment index).toNat < memorySize) :
    (memory.pushSegment static' source index' >>= fun pushed =>
        pushed.popSegment static segment index) =
      .ok (memory.assign p segment (memory.segmentCell static segment index)
        (memory.segmentValue static' source index')) := by
  rw [pushSegment_eq_push hsource, push_eq_ok hsp (by omega) hp]
  generalize memory.segmentValue static' source index' = value
  show ((memory.write p value).write 0 (BitVec.ofNat 16 (p + 1))).popSegment static segment
    index = _
  -- The pop finds the target where it was and the word on top.
  have hcell : ((memory.write p value).write 0 (BitVec.ofNat 16 (p + 1))).segmentCell static
      segment index = memory.segmentCell static segment index := by
    rw [segmentCell_write (Or.inl rfl), segmentCell_write (Or.inr (by omega))]
  have hvalue : ((memory.write p value).write 0 (BitVec.ofNat 16 (p + 1))).read p = value := by
    rw [read_write_of_ne _ _ _ _ (by omega), read_write _ _ _ hp]
  rw [popSegment_eq_ok (read_write _ _ _ (by decide)) hlow hp (by rwa [hcell]), hcell, hvalue]
  -- The stack pointer is written twice, and the second time with what it was.
  have hback : ((memory.write p value).stage segment
      (memory.segmentCell static segment index)).read 0 = BitVec.ofNat 16 p := by
    rw [read_stage (by decide), read_write_of_ne _ _ _ _ (by omega), hsp]
  rw [write_stage (by decide), write_write, write_of_read _ hback, assign]

end Assigning

end Memory

/-- A push within its bounds has code. -/
theorem exists_lower_push {segment : Segment} {index : Word} (options : Options) (ctx : Context)
    (hbounds : (Command.push segment index).checkBounds = .ok ()) :
    ∃ access, Access.ofSegment ctx segment index = .ok access ∧
      lower options ctx (.push segment index) = .ok (.ok access.push, ctx) := by
  have haccess : ∃ access, Access.ofSegment ctx segment index = .ok access := by
    cases segment with
    | temp => exact ⟨_, Store.ofSegment_temp hbounds⟩
    | _ => exact ⟨_, rfl⟩
  rcases haccess with ⟨access, haccess⟩
  refine ⟨access, haccess, lower_eq_ok_ok_iff.mpr ⟨hbounds, ?_⟩⟩
  rw [Lowering.bounded, haccess]
  rfl

/-- So does a pop, except into a constant. -/
theorem exists_lower_pop {segment : Segment} {index : Word} (options : Options) (ctx : Context)
    (hbounds : (Command.pop segment index).checkBounds = .ok ()) (hplace : segment ≠ .constant) :
    ∃ access code, Access.ofSegment ctx segment index = .ok access ∧ access.pop = .ok code ∧
      lower options ctx (.pop segment index) = .ok (.ok code, ctx) := by
  rcases exists_lower_push options ctx hbounds with ⟨access, haccess, -⟩
  have hcode : ∃ code, access.pop = .ok code := by
    cases segment with
    | constant => exact absurd rfl hplace
    | temp =>
        rw [Store.ofSegment_temp hbounds] at haccess
        cases haccess
        exact ⟨_, rfl⟩
    | _ =>
        cases haccess
        exact ⟨_, rfl⟩
  rcases hcode with ⟨code, hcode⟩
  refine ⟨access, code, haccess, hcode, lower_eq_ok_ok_iff.mpr ⟨hbounds, ?_⟩⟩
  rw [Lowering.bounded, haccess, ← hcode]
  rfl

/-- A push and the pop behind it are an assignment. They can be lowered, whatever
    the segments, if the indices keep to their bounds and the target is no constant,
    and then a machine that comes to their code with a stack and with a source and a
    target in memory leaves it at its end. Memory has changed by the writes of
    `Memory.assign` and by nothing else. The stack pointer is where it was unless it
    is the target, and a word that is assigned to its own cell is still there. -/
theorem push_pop_assigns {options options' : Options} {ctx ctx' : Context}
    {source target : Segment} {i j : Word}
    (hi : (Command.push source i).checkBounds = .ok ())
    (hj : (Command.pop target j).checkBounds = .ok ()) (hplace : target ≠ .constant) :
    ∃ push pop, lower options ctx (.push source i) = .ok (.ok push, ctx) ∧
      lower options' ctx' (.pop target j) = .ok (.ok pop, ctx') ∧
      ∀ (image : Image) (s : Machine) (p : Nat) (origin cell : Word), image.KnowsMachine →
        image.Holds s.pc (push ++ pop) → s.memory.read 0 = BitVec.ofNat 16 p →
        256 ≤ p → p ≤ 32767 →
        s.memory.segmentCell (image.address (ctx.staticSymbol i)) source i = origin →
        s.memory.segmentCell (image.address (ctx'.staticSymbol j)) target j = cell →
        (source ≠ .constant → origin.toNat < 32768) → cell.toNat < 32768 →
        ∃ s', image.ReachesWithin s.pc (s.pc + codeSize (push ++ pop)) s s' ∧
          s'.pc = s.pc + codeSize (push ++ pop) ∧
          s'.memory = s.memory.assign p target cell
            (s.memory.segmentValue (image.address (ctx.staticSymbol i)) source i) ∧
          (cell ≠ 0 → s'.memory.read 0 = BitVec.ofNat 16 p) ∧
          (source ≠ .constant → origin = cell →
            s'.memory.read cell.toNat = s.memory.read cell.toNat) := by
  rcases exists_lower_push options ctx hi with ⟨access, haccess, hpush⟩
  rcases exists_lower_pop options' ctx' hj hplace with ⟨access', pop, haccess', hcode, hpop⟩
  refine ⟨access.push, pop, hpush, hpop, ?_⟩
  intro image s p origin cell hknown hheld hsp hlow hhigh horigin hcell hsource htarget
  have hsize : memorySize = 32768 := rfl
  subst horigin hcell
  rcases Image.holds_append.mp hheld with ⟨hheld, hheld'⟩
  -- The pop begins where the push ends, with the memory that it leaves.
  have hcrosses : image.Crosses s.pc (s.pc + codeSize access.push + codeSize pop) s
      (s.memory.pushSegment (image.address (ctx.staticSymbol i)) source i >>= fun pushed =>
        pushed.popSegment (image.address (ctx'.staticSymbol j)) target j) := by
    refine (Image.crosses_push hknown hi haccess hheld).bind ?_ (by omega) (by omega)
    intro m hpc _
    rw [← hpc] at hheld' ⊢
    exact Image.crosses_pop hknown hj haccess' hcode hheld'
  rw [Memory.pushSegment_bind_popSegment hsp (by omega) (by omega) hsource htarget] at hcrosses
  rcases hcrosses with ⟨s', hreach, hpc, hmemory⟩
  rw [codeSize_append, ← Nat.add_assoc]
  refine ⟨s', hreach, hpc, hmemory, ?_, ?_⟩
  · intro hne
    have hzero : (s.memory.segmentCell (image.address (ctx'.staticSymbol j)) target j).toNat ≠ 0 :=
      fun hzero => hne (BitVec.eq_of_toNat_eq hzero)
    rw [hmemory, Memory.read_assign_of_ne (by omega) (by decide) hzero.symm, hsp]
  · intro hcell hsame
    rw [hmemory, Memory.read_assign htarget, Memory.segmentValue_of_ne_constant hcell, hsame]

/-- The code of an assignment from a static variable to a local one, and the cell
    of the static variable. -/
def movingImage : Image :=
  let symbols := SymbolTable.predefined.bind "Main.3" 16
  let code := (Access.static "Main.3").push ++ ((Access.indirect "LCL" 2).pop.toOption.getD [])
  { symbols := symbols, code := (code.filterMap (Instruction.word? symbols.find?)).toArray }

/-- The local variables begin in front of cell 13, where addresses are staged. -/
def movingMachine : Machine :=
  { Machine.initial with memory := ((Memory.blank.write 0 300).write 1 11).write 16 7 }

theorem push_pop_assigns_movingImage :
    movingImage.KnowsMachine ∧
    movingImage.Holds 0 ((Access.static "Main.3").push ++
      (Access.indirect "LCL" 2).pop.toOption.getD []) ∧
    ∃ s', movingImage.ReachesWithin 0 19 movingMachine s' ∧ s'.pc = 19 ∧
      s'.memory = ((movingMachine.memory.write 300 7).write 13 13).write 13 7 ∧
      s'.memory.read 0 = 300 := by
  have hknown : movingImage.KnowsMachine := by
    unfold Image.KnowsMachine
    decide +kernel
  have hheld : movingImage.Holds 0 ((Access.static "Main.3").push ++
      (Access.indirect "LCL" 2).pop.toOption.getD []) := by decide +kernel
  have hstatic : movingImage.address "Main.3" = 16 := by decide +kernel
  refine ⟨hknown, hheld, ?_⟩
  have hstack : movingMachine.memory.read 0 = 300 := by
    simp (disch := decide) only [movingMachine, Memory.read_write, Memory.read_write_of_ne]
  have hlocal : movingMachine.memory.read 1 = 11 := by
    simp (disch := decide) only [movingMachine, Memory.read_write, Memory.read_write_of_ne]
  have hvalue : movingMachine.memory.read (movingImage.address "Main.3").toNat = 7 := by
    rw [hstatic]
    exact Memory.read_write _ _ _ (by decide)
  have hi : (Command.push .static 3).checkBounds = .ok () := rfl
  have hj : (Command.pop .locals 2).checkBounds = .ok () := rfl
  rcases @push_pop_assigns .default .default (.initial "Main") (.initial "Main") _ _ _ _ hi hj
    (by decide) with ⟨push, pop, hpush, hpop, hassigns⟩
  cases hpush
  cases hpop
  rcases hassigns movingImage movingMachine 300 16 13 hknown hheld hstack (by decide) (by decide)
    hstatic (congrArg (· + 2#16) hlocal) (fun _ => by decide) (by decide) with
    ⟨s', hreach, hpc, hmemory, hsp, -⟩
  have hend : s'.memory = movingMachine.memory.assign 300 .locals 13
      (movingMachine.memory.read (movingImage.address "Main.3").toNat) := hmemory
  rw [hvalue] at hend
  exact ⟨s', hreach, hpc, hend, hsp (by decide)⟩

end HackVM
