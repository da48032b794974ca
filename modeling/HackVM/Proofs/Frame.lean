import HackVM.Proofs.Blocks

/-!
# Frames of Calls

A return undoes a call, whatever happened in between.

A call writes five words above the stack pointer and three of the machine's
cells; a return finds the five words again through the cell of the local
variables. The two fragments share nothing but the order of the saved bases, so
each is described by itself: what it leaves in which cell, and that it leaves
all other cells alone. A call leaves a frame (`Memory.HasFrame`), a return needs
one, and it does not matter how the frame lasted.

The stack pointer and the frame are known by number here. They lie above the
cells of the machine, so no write goes astray; without that a push could
overwrite the stack pointer itself.

## Main definitions

* `Memory.HasFrame`: The five words of a frame.
* `Memory.SameExcept`: Nothing but certain cells has changed.

## Theorems

* `Memory.push_eq_ok`, `Memory.pop_eq_ok`: The stack, where its pointer is known.
* `Memory.push_spec`, `Memory.foldlM_pushCell_spec`: Saving cells.
* `Memory.restoreCell_spec`, `Memory.foldlM_restoreCell_spec`: Restoring cells.
* `Memory.pushFrame_spec`, `Memory.popFrame_spec`: Calls and returns in memory.
* `return_restores_caller`: Calls and returns on the machine.
-/

namespace HackVM

namespace Memory

/-- All cells but the given ones hold what they held. -/
def SameExcept (cells : List Nat) (before after : Memory) : Prop :=
  ∀ cell, cell ∉ cells → after.read cell = before.read cell

/-- The frame of a caller lies in five cells: its return address and its four
    bases. -/
def HasFrame (memory : Memory) (p : Nat) (returnAddress : Word) (caller : Memory) : Prop :=
  memory.read p = returnAddress ∧
    ∀ base ∈ [1, 2, 3, 4], memory.read (p + base) = caller.read base

/-- Going back from one cell to another. -/
theorem ofNat_add_sub (a b : Nat) :
    BitVec.ofNat 16 (a + b) - BitVec.ofNat 16 b = BitVec.ofNat 16 a := by
  rw [BitVec.ofNat_add, BitVec.add_sub_cancel]

section Stack

variable {memory : Memory} {p : Nat}

/-- A push puts its word at the stack pointer and raises it. -/
theorem push_eq_ok (hsp : memory.read 0 = BitVec.ofNat 16 p) (hpos : 0 < p) (hp : p < memorySize)
    (value : Word) :
    memory.push value = .ok ((memory.write p value).write 0 (BitVec.ofNat 16 (p + 1))) := by
  rw [push, hsp, put_ofNat _ hp, pure_bind, read_write_of_ne _ _ _ _ (by omega), hsp,
    BitVec.ofNat_add]
  rfl

/-- A pop lowers the stack pointer and finds its word there. -/
theorem pop_eq_ok (hsp : memory.read 0 = BitVec.ofNat 16 (p + 1)) (hpos : 0 < p)
    (hp : p < memorySize) :
    memory.pop = .ok (memory.read p, memory.write 0 (BitVec.ofNat 16 p)) := by
  have hprevious : BitVec.ofNat 16 (p + 1) - 1 = BitVec.ofNat 16 p := ofNat_add_sub p 1
  rw [pop, hsp, hprevious, read_write _ _ _ (by decide), fetch_ofNat _ hp,
    read_write_of_ne _ _ _ _ (by omega)]
  rfl

end Stack

section Saving

variable {memory : Memory} {p : Nat}

/-- What a push leaves in which cell. -/
theorem push_spec (hsp : memory.read 0 = BitVec.ofNat 16 p) (hpos : 0 < p) (hp : p < memorySize)
    (value : Word) :
    ∃ after, memory.push value = .ok after ∧ after.read 0 = BitVec.ofNat 16 (p + 1) ∧
      after.read p = value ∧ SameExcept [0, p] memory after := by
  have hzero : p ≠ 0 := by omega
  refine ⟨_, push_eq_ok hsp hpos hp value, ?_, ?_, ?_⟩
  · exact read_write _ _ _ (by decide)
  · rw [read_write_of_ne _ _ _ _ hzero.symm, read_write _ _ _ hp]
  · intro cell hcell
    simp only [List.mem_cons, List.not_mem_nil, or_false, not_or] at hcell
    rw [read_write_of_ne _ _ _ _ (Ne.symm hcell.1), read_write_of_ne _ _ _ _ (Ne.symm hcell.2)]

/-- The cells from the first on are saved one after the other. -/
theorem foldlM_pushCell_spec (hsp : memory.read 0 = BitVec.ofNat 16 (p + 1)) (count : Nat)
    (hlow : count ≤ p) (hhigh : p + 1 + count ≤ memorySize) :
    ∃ after, (List.range' 1 count).foldlM pushCell memory = .ok after ∧
      after.read 0 = BitVec.ofNat 16 (p + 1 + count) ∧
      (∀ base, 1 ≤ base → base ≤ count → after.read (p + base) = memory.read base) ∧
      ∀ cell, cell ≠ 0 → cell ≤ p ∨ p + count < cell → after.read cell = memory.read cell := by
  induction count with
  | zero => exact ⟨memory, rfl, hsp, fun base h1 h2 => by omega, fun _ _ _ => rfl⟩
  | succ count ih =>
      -- The last cell is saved above those that are saved already.
      rcases ih (by omega) (by omega) with ⟨mid, hfold, hsp', hsaved, hrest⟩
      rcases push_spec hsp' (by omega) (by omega) (mid.read (count + 1)) with
        ⟨after, hpush, hend, htop, hsame⟩
      have hafter : ∀ cell, cell ≠ 0 → cell ≠ p + 1 + count →
          after.read cell = mid.read cell := by
        intro cell hzero hne
        exact hsame cell (by simp [hzero, hne])
      refine ⟨after, ?_, hend, ?_, ?_⟩
      · rw [List.range'_1_concat, List.foldlM_append, hfold, Nat.add_comm 1 count]
        show pushCell mid (count + 1) >>= _ = _
        rw [pushCell, hpush]
        rfl
      · intro base hone hbase
        by_cases hlast : base = count + 1
        · have htarget : p + base = p + 1 + count := by omega
          rw [htarget, htop, hrest _ (by omega) (by omega), hlast]
        · rw [hafter _ (by omega) (by omega), hsaved base hone (by omega)]
      · intro cell hzero hout
        rw [hafter cell hzero (by omega), hrest cell hzero (by omega)]

/-- A call leaves a frame above the arguments and the new bases around it. -/
theorem pushFrame_spec (hsp : memory.read 0 = BitVec.ofNat 16 p) (hlow : 4 < p)
    (hhigh : p + 5 ≤ memorySize) (returnAddress args : Word) :
    ∃ after, memory.pushFrame returnAddress args = .ok after ∧
      after.HasFrame p returnAddress memory ∧ after.read 0 = BitVec.ofNat 16 (p + 5) ∧
      after.read 1 = BitVec.ofNat 16 (p + 5) ∧ after.read 2 = BitVec.ofNat 16 p - args ∧
      SameExcept [0, 1, 2, p, p + 1, p + 2, p + 3, p + 4] memory after := by
  rcases push_spec hsp (by omega) (by omega) returnAddress with ⟨first, hpush, hsp', htop, hsame⟩
  -- The bases are saved after the return address, and it is above them all.
  have hfirst : ∀ cell, cell ≠ 0 → cell ≠ p → first.read cell = memory.read cell := by
    intro cell hzero hne
    exact hsame cell (by simp [hzero, hne])
  rcases foldlM_pushCell_spec hsp' 4 (by omega) (by omega) with ⟨mid, hfold, hend, hsaved, hrest⟩
  -- Setting the two bases touches neither the frame nor the stack pointer.
  have hset : ∀ cell, cell ≠ 1 → cell ≠ 2 →
      (mid.setBases args).read cell = mid.read cell := by
    intro cell hone htwo
    rw [setBases, read_write_of_ne _ _ _ _ hone.symm, read_write_of_ne _ _ _ _ htwo.symm]
  refine ⟨mid.setBases args, ?_, ⟨?_, ?_⟩, ?_, ?_, ?_, ?_⟩
  · rw [pushFrame, hpush]
    show (List.range' 1 4).foldlM pushCell first >>= _ = _
    rw [hfold]
    rfl
  · rw [hset p (by omega) (by omega), hrest p (by omega) (by omega), htop]
  · intro base hbase
    simp only [List.mem_cons, List.not_mem_nil, or_false] at hbase
    rw [hset _ (by omega) (by omega), hsaved base (by omega) (by omega),
      hfirst base (by omega) (by omega)]
  · rw [hset 0 (by omega) (by omega), hend]
  · rw [setBases, read_write _ _ _ (by decide), read_write_of_ne _ _ _ _ (by decide), hend]
  · rw [setBases, read_write_of_ne _ _ _ _ (by decide), read_write _ _ _ (by decide), hend,
      BitVec.add_comm args, ← BitVec.sub_sub, show (5 : Word) = BitVec.ofNat 16 5 from rfl,
      show p + 1 + 4 = p + 5 from rfl, ofNat_add_sub]
  · intro cell hcell
    simp only [List.mem_cons, List.not_mem_nil, or_false, not_or] at hcell
    rw [hset cell (by omega) (by omega), hrest cell (by omega) (by omega),
      hfirst cell (by omega) (by omega)]

end Saving

section Restoring

variable {memory : Memory}

/-- A saved word is taken from below the end of the frame. -/
theorem restoreCell_spec {e cell : Nat} (hend : memory.read 13 = BitVec.ofNat 16 (e + 1))
    (hlow : 13 < e) (hhigh : e < memorySize) (hcell : cell < 13) :
    ∃ after, memory.restoreCell cell = .ok after ∧ after.read 13 = BitVec.ofNat 16 e ∧
      after.read cell = memory.read e ∧ SameExcept [13, cell] memory after := by
  refine ⟨(memory.write 13 (BitVec.ofNat 16 e)).write cell (memory.read e), ?_, ?_, ?_, ?_⟩
  · have hprevious : BitVec.ofNat 16 (e + 1) - 1 = BitVec.ofNat 16 e := ofNat_add_sub e 1
    rw [restoreCell, hend, hprevious, read_write _ _ _ (by decide), fetch_ofNat _ hhigh,
      read_write_of_ne _ _ _ _ (by omega)]
    rfl
  · rw [read_write_of_ne _ _ _ _ (by omega), read_write _ _ _ (by decide)]
  · exact read_write _ _ _ (Nat.lt_trans hcell (by decide))
  · intro other hother
    simp only [List.mem_cons, List.not_mem_nil, or_false, not_or] at hother
    rw [read_write_of_ne _ _ _ _ (Ne.symm hother.2),
      read_write_of_ne _ _ _ _ (Ne.symm hother.1)]

/-- The cells down to the first are taken back one after the other. -/
theorem foldlM_restoreCell_spec {p : Nat} (count : Nat)
    (hend : memory.read 13 = BitVec.ofNat 16 (p + count + 1)) (hlow : 13 ≤ p)
    (hhigh : p + count < memorySize) (hcount : count < 13) :
    ∃ after, (List.range' 1 count).reverse.foldlM restoreCell memory = .ok after ∧
      (∀ base, 1 ≤ base → base ≤ count → after.read base = memory.read (p + base)) ∧
      ∀ cell, cell ≠ 13 → cell = 0 ∨ count < cell → after.read cell = memory.read cell := by
  -- The last cell was saved on top, so it comes first and the others follow.
  induction count generalizing memory with
  | zero => exact ⟨memory, rfl, fun base h1 h2 => by omega, fun _ _ _ => rfl⟩
  | succ count ih =>
      rcases restoreCell_spec hend (by omega) (by omega) hcount with
        ⟨mid, hrestore, hend', hfirst, hsame⟩
      have hmid : ∀ cell, cell ≠ 13 → cell ≠ count + 1 → mid.read cell = memory.read cell := by
        intro cell hne hother
        exact hsame cell (by simp [hne, hother])
      rcases ih hend' (by omega) (by omega) with ⟨after, hfold, hrestored, hrest⟩
      refine ⟨after, ?_, ?_, ?_⟩
      · rw [List.range'_1_concat, List.reverse_append, Nat.add_comm 1 count]
        show restoreCell memory (count + 1) >>= _ = _
        rw [hrestore]
        exact hfold
      · intro base hone hbase
        by_cases hlast : base = count + 1
        · rw [hrest base (by omega) (by omega), hlast, hfirst]
        · rw [hrestored base hone (by omega), hmid _ (by omega) (by omega)]
      · intro cell hne hout
        rw [hrest cell hne (by omega), hmid cell hne (by omega)]

/-- The result goes to the first argument, and the return address is kept. -/
theorem placeResult_spec {p q a : Nat} (hlcl : memory.read 1 = BitVec.ofNat 16 (p + 5))
    (harg : memory.read 2 = BitVec.ofNat 16 a) (hsp : memory.read 0 = BitVec.ofNat 16 (q + 1))
    (hp : 14 < p ∧ p < memorySize) (hq : 14 < q ∧ q < memorySize)
    (ha : 14 < a ∧ a < memorySize) :
    ∃ after, memory.placeResult = .ok after ∧ after.read 13 = BitVec.ofNat 16 (p + 5) ∧
      after.read 14 = memory.read p ∧ after.read 0 = BitVec.ofNat 16 (a + 1) ∧
      after.read a = memory.read q ∧ SameExcept [0, 13, 14, a] memory after := by
  have hreturn : BitVec.ofNat 16 (p + 5) - 5 = BitVec.ofNat 16 p := ofNat_add_sub p 5
  have htop : BitVec.ofNat 16 (q + 1) - 1 = BitVec.ofNat 16 q := ofNat_add_sub q 1
  have hnext : BitVec.ofNat 16 (a + 1) = BitVec.ofNat 16 a + 1 := BitVec.ofNat_add a 1
  have hsize : memorySize = 32768 := rfl
  -- The return address is read first: without arguments the result replaces it.
  refine ⟨((((memory.write 13 (BitVec.ofNat 16 (p + 5))).write 14 (memory.read p)).write 0
    (BitVec.ofNat 16 q)).write a (memory.read q)).write 0 (BitVec.ofNat 16 (a + 1)),
    ?_, ?_, ?_, ?_, ?_, ?_⟩
  · simp (disch := omega) only [placeResult, pop, hlcl, hreturn, fetch_ofNat, read_write_of_ne,
      hsp, htop, pure_bind, read_write, harg, put_ofNat, hnext]
    rfl
  · simp (disch := omega) only [read_write, read_write_of_ne]
  · simp (disch := omega) only [read_write, read_write_of_ne]
  · simp (disch := omega) only [read_write]
  · simp (disch := omega) only [read_write, read_write_of_ne]
  · intro cell hcell
    simp only [List.mem_cons, List.not_mem_nil, or_false, not_or] at hcell
    simp (disch := omega) only [read_write_of_ne]

/-- A return goes to the saved address with the result in place of the first
    argument and the bases of the caller. -/
theorem popFrame_spec {caller : Memory} {returnAddress : Word} {p q a : Nat}
    (hframe : memory.HasFrame p returnAddress caller)
    (hlcl : memory.read 1 = BitVec.ofNat 16 (p + 5)) (harg : memory.read 2 = BitVec.ofNat 16 a)
    (hsp : memory.read 0 = BitVec.ofNat 16 (q + 1)) (hp : p + 5 ≤ memorySize)
    (hq : 14 < q ∧ q < memorySize) (ha : 14 < a ∧ a ≤ p) :
    ∃ after, memory.popFrame = .ok (returnAddress, after) ∧
      (∀ base ∈ [1, 2, 3, 4], after.read base = caller.read base) ∧
      after.read 0 = BitVec.ofNat 16 (a + 1) ∧ after.read a = memory.read q ∧
      SameExcept [0, 1, 2, 3, 4, 13, 14, a] memory after := by
  rcases placeResult_spec hlcl harg hsp ⟨by omega, by omega⟩ hq ⟨by omega, by omega⟩ with
    ⟨mid, hplace, hend, haddress, hsp', hresult, hsame⟩
  have hmid : ∀ cell, cell ≠ 0 → cell ≠ 13 → cell ≠ 14 → cell ≠ a →
      mid.read cell = memory.read cell := by
    intro cell h0 h13 h14 hne
    exact hsame cell (by simp [h0, h13, h14, hne])
  rcases foldlM_restoreCell_spec 4 hend (by omega) (by omega) (by decide) with
    ⟨after, hfold, hrestored, hrest⟩
  refine ⟨after, ?_, ?_, ?_, ?_, ?_⟩
  · rw [popFrame, hplace]
    show (List.range' 1 4).reverse.foldlM restoreCell mid >>= _ = _
    rw [hfold]
    show Except.ok (after.read 14, after) = _
    rw [hrest 14 (by decide) (by decide), haddress, hframe.1]
  · -- The result lies at or below the return address, so the saved bases are intact.
    intro base hbase
    have hsaved := hframe.2 base hbase
    simp only [List.mem_cons, List.not_mem_nil, or_false] at hbase
    rw [hrestored base (by omega) (by omega), hmid _ (by omega) (by omega) (by omega) (by omega),
      hsaved]
  · rw [hrest 0 (by decide) (by decide), hsp']
  · rw [hrest a (by omega) (by omega), hresult]
  · intro cell hcell
    simp only [List.mem_cons, List.not_mem_nil, or_false, not_or] at hcell
    rw [hrest cell (by omega) (by omega),
      hmid cell (by omega) (by omega) (by omega) (by omega)]

end Restoring

end Memory

/-- A call leaves a frame and goes to the function, and every return that finds
    the frame again, however the machine came to it, goes back behind the call
    with the bases of the caller and the result in place of the arguments. -/
theorem return_restores_caller {image : Image} (hknown : image.KnowsMachine)
    {options : Options} {ctx ctx' : Context} {name : String} {args target : Word}
    {code : List Instruction} (hlower : lower options ctx (.call name args) = .ok (.ok code, ctx'))
    (s : Machine) (hheld : image.Holds s.pc code)
    (hfind : image.symbols.find? name = some target) {p : Nat}
    (hsp : s.memory.read 0 = BitVec.ofNat 16 p) (hlow : 256 + args.toNat ≤ p)
    (hhigh : p + 5 ≤ 32767) :
    (∃ entry, image.Reaches s entry ∧ entry.pc = target.toNat ∧
      entry.memory.HasFrame p (BitVec.ofNat 16 (s.pc + codeSize code)) s.memory ∧
      entry.memory.read 0 = BitVec.ofNat 16 (p + 5) ∧
      entry.memory.read 1 = BitVec.ofNat 16 (p + 5) ∧
      entry.memory.read 2 = BitVec.ofNat 16 (p - args.toNat) ∧
      s.memory.SameExcept [0, 1, 2, p, p + 1, p + 2, p + 3, p + 4] entry.memory) ∧
    ∀ (options' : Options) (inner inner' : Context) (code' : List Instruction) (s' : Machine)
      (q : Nat), lower options' inner .ret = .ok (.ok code', inner') →
      image.Holds s'.pc code' →
      s'.memory.HasFrame p (BitVec.ofNat 16 (s.pc + codeSize code)) s.memory →
      s'.memory.read 1 = BitVec.ofNat 16 (p + 5) →
      s'.memory.read 2 = BitVec.ofNat 16 (p - args.toNat) →
      s'.memory.read 0 = BitVec.ofNat 16 q → 257 ≤ q → q ≤ 32767 →
      ∃ back, image.Reaches s' back ∧ back.pc = s.pc + codeSize code ∧
        (∀ base ∈ [1, 2, 3, 4], back.memory.read base = s.memory.read base) ∧
        back.memory.read 0 = BitVec.ofNat 16 (p - args.toNat + 1) ∧
        back.memory.read (p - args.toNat) = s'.memory.read (q - 1) ∧
        s'.memory.SameExcept [0, 1, 2, 3, 4, 13, 14, p - args.toNat] back.memory := by
  cases lowers_of_lower hlower
  rename_i label _
  have hsize : memorySize = 32768 := rfl
  have hlabel := Image.toNat_address_of_holds_call hheld
  have haddress : BitVec.ofNat 16 (s.pc + codeSize (Lowering.call name args label)) =
      image.address label := by
    rw [← hlabel, BitVec.ofNat_toNat, BitVec.setWidth_eq]
  have harg : BitVec.ofNat 16 p - args = BitVec.ofNat 16 (p - args.toNat) := by
    apply BitVec.eq_of_toNat_eq
    simp only [BitVec.toNat_sub, BitVec.toNat_ofNat]
    omega
  rw [haddress]
  constructor
  · rcases Memory.pushFrame_spec hsp (by omega) (by omega) (image.address label) args with
      ⟨memory, hpush, hframe, h0, h1, h2, hsame⟩
    have harrives := Image.arrives_call hknown hheld
    rw [hpush] at harrives
    rcases harrives with ⟨entry, hreach, hpc, rfl, -⟩
    refine ⟨entry, hreach, ?_, hframe, h0, h1, h2.trans harg, hsame⟩
    rw [hpc, Image.address, hfind]
    rfl
  · intro options' inner inner' code' s' q hret hheld' hframe hlcl harg' hsp' hqlow hqhigh
    cases lowers_of_lower hret
    have hq : q = q - 1 + 1 := by omega
    rw [hq] at hsp'
    rcases Memory.popFrame_spec hframe hlcl harg' hsp' (by omega) ⟨by omega, by omega⟩
      ⟨by omega, by omega⟩ with ⟨memory, hpop, hbases, h0, hresult, hsame⟩
    have harrives := Image.arrives_leave hknown hheld'
    rw [hpop] at harrives
    rcases harrives with ⟨back, hreach, hpc, rfl, -⟩
    exact ⟨back, hreach, hpc.trans hlabel, hbases, h0, hresult, hsame⟩

/-- A call of a function that returns at once, and an endless loop behind it. -/
def leafCode : List Instruction :=
  Lowering.call "leaf" 1 "leaf$ret.0" ++
    [.label "end", .atSymbol "end", .jumpAlways, .label "leaf"] ++ Lowering.leave

/-- The words of `leafCode`, with the addresses of its labels. -/
def leafImage : Image :=
  let symbols := ((SymbolTable.predefined.bind "leaf$ret.0" 47).bind "end" 47).bind "leaf" 49
  { symbols := symbols
    code := (leafCode.filterMap (Instruction.word? symbols.find?)).toArray }

theorem return_restores_caller_leafImage :
    leafImage.KnowsMachine ∧ leafImage.Holds 0 leafCode ∧
    ∃ entry back : Machine,
      leafImage.Reaches { Machine.initial with memory := Memory.blank.write 0 300 } entry ∧
      entry.pc = 49 ∧ entry.memory.read 2 = 299 ∧ leafImage.Reaches entry back ∧
      back.pc = 47 ∧ back.memory.read 0 = 300 := by
  have hknown : leafImage.KnowsMachine := by
    unfold Image.KnowsMachine
    decide +kernel
  have hheld : leafImage.Holds 0 leafCode := by decide +kernel
  refine ⟨hknown, hheld, ?_⟩
  rcases Image.holds_append.mp hheld with ⟨hcall, hleave⟩
  have hlower : ∃ ctx', lower .default (Context.initial "Main") (.call "leaf" 1) =
      .ok (.ok (Lowering.call "leaf" 1 "leaf$ret.0"), ctx') := ⟨_, rfl⟩
  rcases hlower with ⟨ctx', hlower⟩
  rcases return_restores_caller hknown hlower
    { Machine.initial with memory := Memory.blank.write 0 300 }
    (Image.holds_append.mp hcall).1 (by decide +kernel : leafImage.symbols.find? "leaf" = some 49)
    (Memory.read_write _ _ _ (by decide) : _ = BitVec.ofNat 16 300) (by decide) (by decide) with
    ⟨⟨entry, hreach, hpc, hframe, h0, h1, h2, -⟩, hreturn⟩
  rcases hreturn .default (Context.initial "Main") (Context.initial "Main") Lowering.leave entry 305
    rfl (by rw [hpc]; exact hleave) hframe h1 h2 h0 (by decide) (by decide) with
    ⟨back, hreach', hpc', -, h0', -, -⟩
  exact ⟨entry, back, hreach, hpc, h2, hreach', hpc', h0'⟩

end HackVM
