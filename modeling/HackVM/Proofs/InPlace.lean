import HackVM.Proofs.Frame

/-!
# Operations in Place

What an operation leaves behind it: its result, and nothing else.

An operation on two words takes one off the stack and puts its result over the
other, and an operation on one word puts its result over that word. The word
that was taken off is still in its cell, above the stack. A comparison takes one
of two ways through its code, but both begin with the same two words gone and
meet at the end, so it differs from the other operations in its result only.

The stack lies above the cells of the machine, and so do both operands. Otherwise
lowering the stack pointer could change an operand before it is read.

## Theorems

* `Operation.combine_of_arity`: An operation on one word ignores the other.
* `Memory.operate_one`, `Memory.operate_two`: Operations in memory.
* `Memory.operate_spec`: What an operation leaves in which cell.
* `Image.crosses_arithmetic`: The code of an operation leads to its end.
* `operation_in_place`: The code of an operation on the machine.
-/

namespace HackVM

namespace Operation

/-- An operation takes one word or two. -/
theorem arity_cases (op : Operation) : op.arity = 1 ∨ op.arity = 2 := by
  cases op with
  | neg | not => exact Or.inl rfl
  | _ => exact Or.inr rfl

/-- An operation on one word ignores the other. -/
theorem combine_of_arity {op : Operation} (h : op.arity = 1) (x x' y : Word) :
    op.combine x y = op.combine x' y := by
  cases op with
  | neg | not => rfl
  | _ => cases h

end Operation

namespace Memory

variable {memory : Memory} {op : Operation} {q : Nat}

/-- An operation on one word changes the cell of that word. -/
theorem operate_one (harity : op.arity = 1) (hsp : memory.read 0 = BitVec.ofNat 16 (q + 1))
    (hq : q < memorySize) :
    memory.operate op = .ok (memory.write q (op.combine 0 (memory.read q))) := by
  have hoperate : memory.operate op = memory.fetch (memory.read 0 - 1) >>= fun y =>
      memory.put (memory.read 0 - 1) (op.combine 0 y) := by
    cases op with
    | neg | not => rfl
    | _ => cases harity
  have htop : BitVec.ofNat 16 (q + 1) - 1 = BitVec.ofNat 16 q := ofNat_add_sub q 1
  rw [hoperate, hsp, htop, fetch_ofNat _ hq, pure_bind, put_ofNat _ hq]
  rfl

/-- An operation on two words changes the stack pointer and the cell of the lower
    word. -/
theorem operate_two (harity : op.arity = 2) (hsp : memory.read 0 = BitVec.ofNat 16 (q + 2))
    (hlow : 0 < q) (hhigh : q + 1 < memorySize) :
    memory.operate op = .ok ((memory.write 0 (BitVec.ofNat 16 (q + 1))).write q
      (op.combine (memory.read q) (memory.read (q + 1)))) := by
  have hoperate : memory.operate op = memory.pop >>= fun top =>
      top.2.fetch (top.2.read 0 - 1) >>= fun x =>
        top.2.put (top.2.read 0 - 1) (op.combine x top.1) := by
    cases op with
    | neg | not => cases harity
    | _ => rfl
  have hq : q < memorySize := by omega
  have hlower : BitVec.ofNat 16 (q + 1) - 1 = BitVec.ofNat 16 q := ofNat_add_sub q 1
  rw [hoperate, pop_eq_ok hsp (by omega) hhigh]
  show (memory.write 0 (BitVec.ofNat 16 (q + 1))).fetch _ >>= _ = _
  rw [read_write _ _ _ (by decide), hlower, fetch_ofNat _ hq, pure_bind, put_ofNat _ hq,
    read_write_of_ne _ _ _ _ (by omega)]
  rfl

/-- What an operation leaves in which cell. -/
theorem operate_spec {p : Nat} (hsp : memory.read 0 = BitVec.ofNat 16 p) (hlow : op.arity < p)
    (hhigh : p ≤ memorySize) :
    ∃ after, memory.operate op = .ok after ∧
      after.read 0 = BitVec.ofNat 16 (p + 1 - op.arity) ∧
      after.read (p - op.arity) = op.combine (memory.read (p - 2)) (memory.read (p - 1)) ∧
      SameExcept [0, p - op.arity] memory after := by
  rcases op.arity_cases with harity | harity
  · -- The stack pointer is not written at all.
    obtain ⟨q, rfl⟩ : ∃ q, p = q + 1 := ⟨p - 1, by omega⟩
    rw [harity] at hlow ⊢
    refine ⟨_, operate_one harity hsp (by omega), ?_, ?_, ?_⟩
    · rw [read_write_of_ne _ _ _ _ (by omega), hsp]
      rfl
    · rw [Nat.add_sub_cancel, read_write _ _ _ (by omega)]
      exact Operation.combine_of_arity harity _ _ _
    · intro cell hcell
      simp only [List.mem_cons, List.not_mem_nil, or_false, not_or] at hcell
      exact read_write_of_ne _ _ _ _ (Ne.symm hcell.2)
  · obtain ⟨q, rfl⟩ : ∃ q, p = q + 2 := ⟨p - 2, by omega⟩
    rw [harity] at hlow ⊢
    refine ⟨_, operate_two harity hsp (by omega) (by omega), ?_, ?_, ?_⟩
    · rw [read_write_of_ne _ _ _ _ (by omega), read_write _ _ _ (by decide)]
      rfl
    · rw [Nat.add_sub_cancel, read_write _ _ _ (by omega)]
      rfl
    · intro cell hcell
      simp only [List.mem_cons, List.not_mem_nil, or_false, not_or] at hcell
      rw [read_write_of_ne _ _ _ _ (by omega), read_write_of_ne _ _ _ _ (by omega)]

end Memory

/-- The code of an operation is crossed, whichever way it takes. -/
theorem Image.crosses_arithmetic {image : Image} (hknown : image.KnowsMachine) {options : Options}
    {ctx ctx' : Context} {op : Operation} {code : List Instruction} {s : Machine}
    (hlower : lower options ctx (.arithmetic op) = .ok (.ok code, ctx'))
    (hheld : image.Holds s.pc code) :
    image.Crosses s.pc (s.pc + codeSize code) s (s.memory.operate op) := by
  cases lowers_of_lower hlower with
  | inPlace hop hcode => exact Image.crosses_operation hknown hop hcode hheld
  | compare hop _ => exact Image.crosses_compare hknown hop hheld

/-- An operation works in place. A machine that comes to its code with the operands
    on a stack of `p` cells leaves the code at its end, without a fault and nowhere
    else. The operands are gone, the result is on top of the stack, in the cell of
    the lower operand, and all other cells hold what they held, that of the upper
    operand included. -/
theorem operation_in_place {image : Image} (hknown : image.KnowsMachine) {options : Options}
    {ctx ctx' : Context} {op : Operation} {code : List Instruction}
    (hlower : lower options ctx (.arithmetic op) = .ok (.ok code, ctx')) (s : Machine)
    (hheld : image.Holds s.pc code) {p : Nat} (hsp : s.memory.read 0 = BitVec.ofNat 16 p)
    (hlow : 256 + op.arity ≤ p) (hhigh : p ≤ 32767) :
    ∃ s', image.ReachesWithin s.pc (s.pc + codeSize code) s s' ∧
      s'.pc = s.pc + codeSize code ∧
      s'.memory.read 0 = BitVec.ofNat 16 (p + 1 - op.arity) ∧
      s'.memory.read (p - op.arity) =
        op.combine (s.memory.read (p - 2)) (s.memory.read (p - 1)) ∧
      s.memory.SameExcept [0, p - op.arity] s'.memory := by
  have hcrosses := Image.crosses_arithmetic hknown hlower hheld
  have hsize : memorySize = 32768 := rfl
  rcases Memory.operate_spec hsp (by omega : op.arity < p) (by omega) with
    ⟨after, hoperate, hpointer, hresult, hsame⟩
  rw [hoperate] at hcrosses
  rcases hcrosses with ⟨s', hreach, hpc, rfl⟩
  exact ⟨s', hreach, hpc, hpointer, hresult, hsame⟩

/-- The code of a comparison. -/
def greaterCode : List Instruction :=
  Lowering.compare .jgt { ifTrue := "GT_TRUE_0", finish := "GT_END_0" }

/-- The code, and the addresses of its labels. -/
def greaterImage : Image :=
  let symbols := (SymbolTable.predefined.bind "GT_TRUE_0" 12).bind "GT_END_0" 15
  { symbols := symbols, code := (greaterCode.filterMap (Instruction.word? symbols.find?)).toArray }

theorem greaterImage_knowsMachine : greaterImage.KnowsMachine := by
  unfold Image.KnowsMachine
  decide +kernel

theorem greaterImage_holds : greaterImage.Holds 0 greaterCode := by decide +kernel

theorem lower_greater : ∃ ctx', lower .default (.initial "Main") (.arithmetic .gt) =
    .ok (.ok greaterCode, ctx') := ⟨_, rfl⟩

/-- Two words on a stack of 300 cells. -/
def pairMachine (x y : Word) : Machine :=
  { Machine.initial with memory := ((Memory.blank.write 0 300).write 298 x).write 299 y }

theorem read_pairMachine (x y : Word) :
    (pairMachine x y).memory.read 0 = 300 ∧ (pairMachine x y).memory.read 298 = x ∧
      (pairMachine x y).memory.read 299 = y := by
  refine ⟨?_, ?_, ?_⟩ <;>
    simp (disch := decide) only [pairMachine, Memory.read_write, Memory.read_write_of_ne]

/-- The difference of the greatest number and minus one is negative, because it
    does not fit a word. -/
theorem operation_in_place_greaterImage :
    greaterImage.KnowsMachine ∧
    greaterImage.Holds 0 (Lowering.compare .jgt { ifTrue := "GT_TRUE_0", finish := "GT_END_0" }) ∧
    ∃ s', greaterImage.ReachesWithin 0 15 (pairMachine 32767 65535) s' ∧ s'.pc = 15 ∧
      s'.memory.read 0 = 299 ∧ s'.memory.read 298 = 0 ∧ s'.memory.read 299 = 65535 := by
  rcases lower_greater with ⟨ctx', hlower⟩
  rcases read_pairMachine 32767 65535 with ⟨hsp, hlow, hhigh⟩
  rcases operation_in_place greaterImage_knowsMachine hlower (pairMachine 32767 65535)
    greaterImage_holds hsp (by decide) (by decide) with
    ⟨s', hreach, hpc, hpointer, hresult, hsame⟩
  refine ⟨greaterImage_knowsMachine, greaterImage_holds, s', hreach, hpc, hpointer, ?_, ?_⟩
  · have hdecides : s'.memory.read 298 = Operation.gt.combine
        ((pairMachine 32767 65535).memory.read 298) ((pairMachine 32767 65535).memory.read 299) :=
      hresult
    rw [hdecides, hlow, hhigh]
    decide
  · exact (hsame 299 (by decide)).trans hhigh

end HackVM
