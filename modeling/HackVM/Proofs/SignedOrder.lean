import HackVM.Proofs.InPlace

/-!
# Comparisons and the Signed Order

What the code of a comparison says about the order of two numbers.

A comparison subtracts and looks at the sign of the difference. The machine
subtracts words, and a word cannot hold the difference of every two words: it
holds that of numbers which are at most 32767 apart, or 32768 downwards. Then
the sign is that of the order. Any other difference is off by 65536 and has the
opposite sign, so the comparison answers for its operands exchanged. Equality
does not notice, because it is the same both ways, and a difference that wraps
is not zero.

## Main definitions

* `Word.DifferenceFits`: The difference of two signed words is a signed word.
* `Operation.asks`: What a comparison asks about two numbers.

## Theorems

* `Word.toInt_sub_of_fits`, `Word.toInt_sub_of_not_fits`: The sign of a
  difference.
* `Operation.combine_of_fits`, `Operation.combine_of_not_fits`: The answer of a
  comparison.
* `Image.reaches_comparison`: The code of a comparison.
* `comparison_decides_order`: What the code leaves on the stack.
* `greater_unseen`: It does not decide the order of any two numbers.
-/

namespace HackVM

namespace Word

variable {x y : Word}

/-- The difference of two words, read with their signs, is a word with a sign. -/
def DifferenceFits (x y : Word) : Prop :=
  -32768 ≤ x.toInt - y.toInt ∧ x.toInt - y.toInt ≤ 32767

instance (x y : Word) : Decidable (DifferenceFits x y) :=
  inferInstanceAs (Decidable (_ ∧ _))

/-- A difference that fits is the difference. -/
theorem toInt_sub_of_fits (h : DifferenceFits x y) : (x - y).toInt = x.toInt - y.toInt := by
  rcases h with ⟨hlow, hhigh⟩
  rw [BitVec.toInt_sub]
  exact Int.bmod_eq_of_le (by omega) (by omega)

/-- A difference that does not fit has the opposite sign. -/
theorem toInt_sub_of_not_fits (h : ¬DifferenceFits x y) :
    (0 < (x - y).toInt ↔ x.toInt < y.toInt) ∧ ((x - y).toInt < 0 ↔ y.toInt < x.toInt) := by
  have hx := x.toInt_lt
  have hx' := x.le_toInt
  have hy := y.toInt_lt
  have hy' := y.le_toInt
  unfold DifferenceFits at h
  -- The difference is less than 65536 from zero, so it wraps once.
  rw [BitVec.toInt_sub, Int.bmod_def]
  omega

end Word

namespace Operation

variable {op : Operation} {x y : Word}

/-- What a comparison asks about two numbers, of which the second is on top. -/
def asks : Operation → Int → Int → Bool
  | .eq, a, b => a = b
  | .gt, a, b => b < a
  | .lt, a, b => a < b
  | _, _, _ => false

/-- Words are equal if their difference is zero. -/
theorem combine_eq (x y : Word) : Operation.eq.combine x y = truth (x.toInt = y.toInt) := by
  have hzero : x - y = 0 ↔ x.toInt = y.toInt := by
    rw [BitVec.sub_eq_iff_eq_add, BitVec.toInt_inj]
    exact Eq.congr_right (BitVec.zero_add y)
  simp only [combine, ← hzero, beq_eq_decide]

/-- A comparison answers its question if the difference fits. -/
theorem combine_of_fits (hop : op.isComparison = true) (h : Word.DifferenceFits x y) :
    op.combine x y = truth (op.asks x.toInt y.toInt) := by
  have hsub := Word.toInt_sub_of_fits h
  cases op with
  | eq => exact combine_eq x y
  | gt =>
      have hsign : 0 < (x - y).toInt ↔ y.toInt < x.toInt := by omega
      simp only [combine, asks, hsign]
  | lt =>
      have hsign : (x - y).toInt < 0 ↔ x.toInt < y.toInt := by omega
      simp only [combine, asks, hsign]
  | _ => cases hop

/-- If it does not fit, a comparison answers for the operands exchanged. -/
theorem combine_of_not_fits (hop : op.isComparison = true) (h : ¬Word.DifferenceFits x y) :
    op.combine x y = truth (op.asks y.toInt x.toInt) := by
  rcases Word.toInt_sub_of_not_fits h with ⟨hpos, hneg⟩
  cases op with
  | eq =>
      rw [combine_eq]
      simp only [asks, eq_comm]
  | gt => simp only [combine, asks, hpos]
  | lt => simp only [combine, asks, hneg]
  | _ => cases hop

theorem arity_of_isComparison (hop : op.isComparison = true) : op.arity = 2 := by
  cases op with
  | eq | gt | lt => rfl
  | _ => cases hop

end Operation

section Machine

variable {image : Image} {options : Options} {ctx ctx' : Context} {op : Operation}
  {code : List Instruction} {s : Machine}

/-- The code of a comparison puts its answer over the lower operand. -/
theorem Image.reaches_comparison (hknown : image.KnowsMachine) (hop : op.isComparison = true)
    (hlower : lower options ctx (.arithmetic op) = .ok (.ok code, ctx'))
    (hheld : image.Holds s.pc code) {p : Nat} (hsp : s.memory.read 0 = BitVec.ofNat 16 p)
    (hlow : 258 ≤ p) (hhigh : p ≤ 32767) :
    ∃ s', image.ReachesWithin s.pc (s.pc + codeSize code) s s' ∧
      s'.pc = s.pc + codeSize code ∧
      s'.memory.read (p - 2) = op.combine (s.memory.read (p - 2)) (s.memory.read (p - 1)) := by
  have harity := Operation.arity_of_isComparison hop
  have hsize : memorySize = 32768 := rfl
  rcases Memory.operate_spec hsp (by omega : op.arity < p) (by omega) with
    ⟨after, hoperate, -, hresult, -⟩
  have hcrosses := Image.crosses_arithmetic hknown hlower hheld
  rw [hoperate] at hcrosses
  rcases hcrosses with ⟨s', hreach, hpc, rfl⟩
  rw [harity] at hresult
  exact ⟨s', hreach, hpc, hresult⟩

end Machine

/-- The code of a comparison decides the signed order of two numbers whose
    difference fits a word. A machine that comes to it with `x` and `y` on a stack of
    `p` cells, `y` on top, leaves it at its end with minus one in the cell of `x` if
    the answer is yes and zero if it is no. If the difference does not fit, the
    answer is the one for `y` and `x`. -/
theorem comparison_decides_order {image : Image} (hknown : image.KnowsMachine)
    {options : Options} {ctx ctx' : Context} {op : Operation} (hop : op.isComparison = true)
    {code : List Instruction}
    (hlower : lower options ctx (.arithmetic op) = .ok (.ok code, ctx')) (s : Machine)
    (hheld : image.Holds s.pc code) {p : Nat} (hsp : s.memory.read 0 = BitVec.ofNat 16 p)
    (hlow : 258 ≤ p) (hhigh : p ≤ 32767) {x y : Word} (hx : s.memory.read (p - 2) = x)
    (hy : s.memory.read (p - 1) = y) :
    ∃ s', image.ReachesWithin s.pc (s.pc + codeSize code) s s' ∧
      s'.pc = s.pc + codeSize code ∧
      (Word.DifferenceFits x y →
        s'.memory.read (p - 2) = if op.asks x.toInt y.toInt then -1 else 0) ∧
      (¬Word.DifferenceFits x y →
        s'.memory.read (p - 2) = if op.asks y.toInt x.toInt then -1 else 0) := by
  rcases Image.reaches_comparison hknown hop hlower hheld hsp hlow hhigh with
    ⟨s', hreach, hpc, hresult⟩
  rw [hx, hy] at hresult
  refine ⟨s', hreach, hpc, ?_, ?_⟩
  · intro hfits
    rw [hresult, Operation.combine_of_fits hop hfits]
    rfl
  · intro hfits
    rw [hresult, Operation.combine_of_not_fits hop hfits]
    rfl

/-- The greatest number and zero are as far apart as can be, and the greatest
    number and minus one are too far. -/
theorem comparison_decides_order_greaterImage :
    Word.DifferenceFits 32767 0 ∧ ¬Word.DifferenceFits 32767 65535 ∧
    (∃ s', greaterImage.ReachesWithin 0 15 (pairMachine 32767 0) s' ∧ s'.pc = 15 ∧
      s'.memory.read 298 = -1) ∧
    ∃ s', greaterImage.ReachesWithin 0 15 (pairMachine 32767 65535) s' ∧ s'.pc = 15 ∧
      s'.memory.read 298 = 0 := by
  rcases lower_greater with ⟨ctx', hlower⟩
  have hfits : Word.DifferenceFits 32767 0 := by decide
  have hfar : ¬Word.DifferenceFits 32767 65535 := by decide
  refine ⟨hfits, hfar, ?_, ?_⟩
  · rcases read_pairMachine 32767 0 with ⟨hsp, hx, hy⟩
    rcases comparison_decides_order greaterImage_knowsMachine rfl hlower (pairMachine 32767 0)
      greaterImage_holds hsp (by decide) (by decide) hx hy with ⟨s', hreach, hpc, hanswer, -⟩
    exact ⟨s', hreach, hpc, hanswer hfits⟩
  · rcases read_pairMachine 32767 65535 with ⟨hsp, hx, hy⟩
    rcases comparison_decides_order greaterImage_knowsMachine rfl hlower
      (pairMachine 32767 65535) greaterImage_holds hsp (by decide) (by decide) hx hy with
      ⟨s', hreach, hpc, -, hanswer⟩
    exact ⟨s', hreach, hpc, hanswer hfar⟩

/-- The greater of two numbers is not always seen to be greater: the greatest
    number is not seen to be greater than minus one. -/
theorem greater_unseen :
    ¬∀ (image : Image) (options : Options) (ctx ctx' : Context) (code : List Instruction)
      (s : Machine) (p : Nat), image.KnowsMachine →
      lower options ctx (.arithmetic .gt) = .ok (.ok code, ctx') → image.Holds s.pc code →
      s.memory.read 0 = BitVec.ofNat 16 p → 258 ≤ p → p ≤ 32767 →
      ∃ s', image.ReachesWithin s.pc (s.pc + codeSize code) s s' ∧
        s'.pc = s.pc + codeSize code ∧ s'.memory.read (p - 2) =
          if (s.memory.read (p - 1)).toInt < (s.memory.read (p - 2)).toInt then -1 else 0 := by
  intro hdecides
  rcases lower_greater with ⟨ctx', hlower⟩
  rcases read_pairMachine 32767 65535 with ⟨hsp, hx, hy⟩
  rcases hdecides greaterImage .default (.initial "Main") ctx' greaterCode
    (pairMachine 32767 65535) 300 greaterImage_knowsMachine hlower greaterImage_holds hsp
    (by decide) (by decide) with ⟨claimed, hreach, hpc, hclaimed⟩
  rcases Image.reaches_comparison greaterImage_knowsMachine rfl hlower greaterImage_holds hsp
    (by decide) (by decide) with ⟨found, hreach', hpc', hfound⟩
  -- The machine comes to the end of the code once, with one memory.
  have hsame : claimed = found := hreach.unique hreach' (Nat.le_of_eq hpc.symm)
    (Nat.le_of_eq hpc'.symm)
  rw [show 300 - 2 = 298 from rfl, show 300 - 1 = 299 from rfl, hx, hy] at hclaimed hfound
  rw [hsame, hfound] at hclaimed
  exact absurd hclaimed (by decide)

end HackVM
