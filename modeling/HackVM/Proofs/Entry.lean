import HackVM.Proofs.Frame

/-!
# Entering a Function

What a function finds when it begins.

A call saves the frame of the caller above the arguments and goes to the
function, and the function puts a zero on the stack for each of its local
variables. The two pieces of code come from different lines, perhaps of
different units, and meet only in the stack pointer and the bases: the call sets
the base of the local variables to the stack pointer, and the zeros go to the
stack pointer, too. That is why the variables are zero whatever the cells above
the stack held before.

Everything is written at or above the old stack pointer, apart from the three
cells of the machine, and the arguments lie below it.

## Main definitions

* `Memory.Entered`: Memory at the beginning of a function.

## Theorems

* `Memory.pushZeros_spec`: Zeros fill the stack.
* `Memory.entered_of_pushFrame`: A frame and zeros are the beginning of a
  function.
* `Image.reaches_called`: A call gets to the function with a frame.
* `callee_starts_clean`: What a function finds when it is called.
-/

namespace HackVM

namespace Memory

/-- Memory at the beginning of a function that was called on a stack of `p` cells:
    the arguments are the topmost words of the caller, the local variables are
    zero, the frame between them is that of the caller, and no other cell has
    changed but the stack pointer and the bases of the two. -/
structure Entered (memory caller : Memory) (p args locals : Nat) (returnAddress : Word) :
    Prop where
  stack : memory.read 0 = BitVec.ofNat 16 (p + 5 + locals)
  localBase : memory.read 1 = BitVec.ofNat 16 (p + 5)
  argumentBase : memory.read 2 = BitVec.ofNat 16 (p - args)
  arguments : ∀ i, i < args → memory.read (p - args + i) = caller.read (p - args + i)
  cleared : ∀ j, j < locals → memory.read (p + 5 + j) = 0
  frame : memory.HasFrame p returnAddress caller
  bases : memory.read 3 = caller.read 3 ∧ memory.read 4 = caller.read 4
  rest : ∀ cell, cell ∉ [0, 1, 2] → cell < p ∨ p + 4 + locals < cell →
    memory.read cell = caller.read cell

variable {memory : Memory} {p : Nat}

/-- Zeros fill the cells from the stack pointer on, whatever these held. -/
theorem pushZeros_spec (hsp : memory.read 0 = BitVec.ofNat 16 p) (hpos : 0 < p) (count : Nat)
    (hhigh : p + count ≤ memorySize) :
    ∃ after, memory.pushZeros count = .ok after ∧
      after.read 0 = BitVec.ofNat 16 (p + count) ∧
      (∀ j, j < count → after.read (p + j) = 0) ∧
      ∀ cell, cell ≠ 0 → cell < p ∨ p + count ≤ cell → after.read cell = memory.read cell := by
  induction count generalizing memory p with
  | zero => exact ⟨memory, rfl, hsp, fun j hj => by omega, fun _ _ _ => rfl⟩
  | succ count ih =>
      -- The first zero moves the stack pointer, and the others start from there.
      rcases push_spec hsp hpos (by omega) 0 with ⟨mid, hpush, hsp', htop, hsame⟩
      rcases ih hsp' (by omega) (by omega) with ⟨after, hzeros, hend, hcleared, hrest⟩
      have hmid : ∀ cell, cell ≠ 0 → cell ≠ p → mid.read cell = memory.read cell := by
        intro cell hzero hne
        exact hsame cell (by simp [hzero, hne])
      refine ⟨after, ?_, ?_, ?_, ?_⟩
      · rw [pushZeros, hpush]
        exact hzeros
      · rw [hend, Nat.add_assoc, Nat.add_comm 1 count]
      · -- The first zero is below the others, and they do not get at it.
        intro j hj
        by_cases hfirst : j = 0
        · rw [hfirst, Nat.add_zero, hrest p (by omega) (by omega), htop]
        · have hcell : p + j = p + 1 + (j - 1) := by omega
          rw [hcell, hcleared (j - 1) (by omega)]
      · intro cell hzero hout
        rw [hrest cell hzero (by omega), hmid cell hzero (by omega)]

/-- Going back from a cell by the number that a word names. -/
theorem ofNat_sub_of_le {args : Word} (h : args.toNat ≤ p) (hp : p < memorySize) :
    BitVec.ofNat 16 p - args = BitVec.ofNat 16 (p - args.toNat) := by
  have hsize : memorySize = 32768 := rfl
  apply BitVec.eq_of_toNat_eq
  simp only [BitVec.toNat_sub, BitVec.toNat_ofNat]
  omega

/-- A frame and a zero for each local variable are the beginning of a function. -/
theorem entered_of_pushFrame (hsp : memory.read 0 = BitVec.ofNat 16 p) (args : Word)
    (locals : Nat) (hlow : 4 + args.toNat < p) (hhigh : p + 5 + locals < memorySize)
    (returnAddress : Word) :
    ∃ framed after, memory.pushFrame returnAddress args = .ok framed ∧
      framed.pushZeros locals = .ok after ∧
      after.Entered memory p args.toNat locals returnAddress := by
  rcases pushFrame_spec hsp (by omega) (by omega) returnAddress args with
    ⟨framed, hframed, hframe, h0, h1, h2, hsame⟩
  rcases pushZeros_spec h0 (by omega) locals (by omega) with
    ⟨after, hzeros, hstack, hcleared, hrest⟩
  rw [ofNat_sub_of_le (by omega) (by omega)] at h2
  -- What is below the frame, and neither the stack pointer nor a base, is untouched.
  have hcaller : ∀ cell, cell ∉ [0, 1, 2] → cell < p ∨ p + 4 + locals < cell →
      after.read cell = memory.read cell := by
    intro cell hcell hout
    simp only [List.mem_cons, List.not_mem_nil, or_false, not_or] at hcell
    rw [hrest cell hcell.1 (by omega)]
    refine hsame cell ?_
    simp only [List.mem_cons, List.not_mem_nil, or_false]
    omega
  refine ⟨framed, after, hframed, hzeros, ⟨hstack, ?_, ?_, ?_, hcleared, ⟨?_, ?_⟩, ?_, hcaller⟩⟩
  · rw [hrest 1 (by decide) (by omega), h1]
  · rw [hrest 2 (by decide) (by omega), h2]
  · intro i hi
    refine hcaller _ ?_ (by omega)
    simp only [List.mem_cons, List.not_mem_nil, or_false]
    omega
  · -- The frame is below the zeros.
    rw [hrest p (by omega) (by omega), hframe.1]
  · intro base hbase
    have hsaved := hframe.2 base hbase
    simp only [List.mem_cons, List.not_mem_nil, or_false] at hbase
    rw [hrest (p + base) (by omega) (by omega), hsaved]
  · exact ⟨hcaller 3 (by decide) (by omega), hcaller 4 (by decide) (by omega)⟩

end Memory

/-- A call gets to the function with a frame on the stack. -/
theorem Image.reaches_called {image : Image} (hknown : image.KnowsMachine) {options : Options}
    {ctx ctx' : Context} {name : String} {args : Word} {code : List Instruction}
    (hcall : lower options ctx (.call name args) = .ok (.ok code, ctx')) {s : Machine}
    (hheld : image.Holds s.pc code) {framed : Memory}
    (hframed : s.memory.pushFrame (BitVec.ofNat 16 (s.pc + codeSize code)) args = .ok framed) :
    ∃ called, image.Reaches s called ∧ called.pc = (image.address name).toNat ∧
      called.memory = framed := by
  cases lowers_of_lower hcall
  rename_i label _
  -- The label of the call stands for the address behind it, and that is saved.
  have haddress : BitVec.ofNat 16 (s.pc + codeSize (Lowering.call name args label)) =
      image.address label := by
    rw [← toNat_address_of_holds_call hheld, BitVec.ofNat_toNat, BitVec.setWidth_eq]
  have harrives := arrives_call hknown hheld
  rw [← haddress, hframed] at harrives
  rcases harrives with ⟨called, hreach, hpc, hmemory, -⟩
  exact ⟨called, hreach, hpc, hmemory⟩

/-- A function starts with its arguments and with zeros. A machine that comes to
    the code of a call, on a stack of `p` cells with the arguments on top, gets to
    the function, and from there straight to the end of its entry code. The base of
    the arguments is where the caller put them, they are still there, the local
    variables begin above the frame and are zero whatever was there, and the stack
    begins above them. The frame is that of the caller, and nothing else has
    changed. -/
theorem callee_starts_clean {image : Image} (hknown : image.KnowsMachine)
    {options options' : Options} {ctx ctx' inner inner' : Context} {name : String}
    {args locals : Word} {code entry : List Instruction}
    (hcall : lower options ctx (.call name args) = .ok (.ok code, ctx'))
    (hfunction : lower options' inner (.function name locals) = .ok (.ok entry, inner'))
    (s : Machine) (hheld : image.Holds s.pc code) {base : Nat} (hentry : image.Holds base entry)
    {p : Nat} (hsp : s.memory.read 0 = BitVec.ofNat 16 p) (hlow : 256 + args.toNat ≤ p)
    (hhigh : p + 5 + locals.toNat ≤ 32767) :
    ∃ called s', image.Reaches s called ∧ called.pc = base ∧
      image.ReachesWithin base (base + codeSize entry) called s' ∧
      s'.pc = base + codeSize entry ∧
      s'.memory.Entered s.memory p args.toNat locals.toNat
        (BitVec.ofNat 16 (s.pc + codeSize code)) := by
  have hsize : memorySize = 32768 := rfl
  rcases Memory.entered_of_pushFrame hsp args locals.toNat (by omega) (by omega)
    (BitVec.ofNat 16 (s.pc + codeSize code)) with ⟨framed, after, hframed, hzeros, hentered⟩
  rcases Image.reaches_called hknown hcall hheld hframed with ⟨called, hreach, hpc, rfl⟩
  cases lowers_of_lower hfunction
  -- The call goes to the label, and the label is where the entry code begins.
  rw [Image.toNat_address_of_holds hentry] at hpc
  have hcrosses := Image.crosses_enter hknown (hpc ▸ hentry)
  rw [hzeros, hpc] at hcrosses
  rcases hcrosses with ⟨s', hwithin, hend, rfl⟩
  exact ⟨called, s', hreach, hpc, hwithin, hend, hentered⟩

/-- A call of a function with two local variables, and the beginning of the
    function behind it. -/
def workCode : List Instruction :=
  Lowering.call "work" 2 "work$ret.0" ++ Lowering.enter "work" 2

/-- The words of `workCode`, with the addresses of its labels. -/
def workImage : Image :=
  let symbols := (SymbolTable.predefined.bind "work$ret.0" 47).bind "work" 47
  { symbols := symbols
    code := (workCode.filterMap (Instruction.word? symbols.find?)).toArray }

/-- Two arguments on the stack, and old words where the local variables will be. -/
def workMachine : Machine :=
  { Machine.initial with
    memory := ((((Memory.blank.write 0 300).write 298 7).write 299 8).write 305 9).write 306 10 }

theorem callee_starts_clean_workImage :
    workImage.KnowsMachine ∧ workImage.Holds 0 workCode ∧ workMachine.memory.read 305 = 9 ∧
    ∃ s', workImage.Reaches workMachine s' ∧ s'.pc = 57 ∧ s'.memory.read 2 = 298 ∧
      s'.memory.read 298 = 7 ∧ s'.memory.read 299 = 8 ∧ s'.memory.read 300 = 47 ∧
      s'.memory.read 305 = 0 ∧ s'.memory.read 306 = 0 ∧ s'.memory.read 0 = 307 := by
  have hknown : workImage.KnowsMachine := by
    unfold Image.KnowsMachine
    decide +kernel
  have hheld : workImage.Holds 0 workCode := by decide +kernel
  have hread : workMachine.memory.read 0 = 300 ∧ workMachine.memory.read 298 = 7 ∧
      workMachine.memory.read 299 = 8 ∧ workMachine.memory.read 305 = 9 := by
    simp (disch := decide) only [workMachine, Memory.read_write, Memory.read_write_of_ne,
      and_self]
  rcases hread with ⟨hsp, hfirst, hsecond, hold⟩
  refine ⟨hknown, hheld, hold, ?_⟩
  rcases Image.holds_append.mp hheld with ⟨hcode, hentry⟩
  have hcall : ∃ ctx', lower .default (.initial "Main") (.call "work" 2) =
      .ok (.ok (Lowering.call "work" 2 "work$ret.0"), ctx') := ⟨_, rfl⟩
  rcases hcall with ⟨ctx', hcall⟩
  rcases @callee_starts_clean workImage hknown .default .default (.initial "Main") ctx'
    (.initial "Main") _ "work" 2 2 _ _ hcall rfl workMachine hcode _ hentry 300 hsp (by decide)
    (by decide) with ⟨called, s', hreach, hpc, hwithin, hend, hentered⟩
  refine ⟨s', hreach.trans hwithin.reaches, hend, hentered.argumentBase, ?_, ?_,
    hentered.frame.1, hentered.cleared 0 (by decide), hentered.cleared 1 (by decide),
    hentered.stack⟩
  · exact (hentered.arguments 0 (by decide)).trans hfirst
  · exact (hentered.arguments 1 (by decide)).trans hsecond

end HackVM
