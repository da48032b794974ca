import HackVM.Proofs.Assignment
import HackVM.Proofs.RoundTrip

/-!
# Numbers to Be Loaded

Which commands load a number that no load can hold.

A load holds 15 bits, and an index has 16. The bounds of a command see to it
that a constant fits, that the address of a temporary does, and that a call can
load the size of its frame together with its arguments. The four segments with a
base have no bound at all, although their index is loaded like a constant: the
address is the sum of the index and the base. An index from 32768 on is
therefore accepted, and the code for it cannot be assembled.

Nothing else goes wrong. The numbers of each command are listed, the ones beyond
15 bits are found among them, and the assembler complains of a number exactly if
there is one. It complains in its second pass, and the code of such a command
begins with the load, so that no other complaint comes first.

## Main definitions

* `loadedNumbers`: The numbers that code loads.
* `Command.loads`: The numbers that a command needs.
* `Command.farIndex?`: An index that no load can hold.

## Theorems

* `Lowers.loadedNumbers_eq`: Code loads what the command needs.
* `Command.mem_loads_iff`: Within the bounds, only an index can be too large.
* `large_of_constantTooLarge`: A number that is refused is too large.
* `constantTooLarge_of_load`: A number that is too large is refused.
* `far_index_escapes_bounds`: Which commands load a number that is too large.
* `far_index_refused`: There are such commands.
-/

namespace HackVM

section Numbers

/-- The number that an instruction loads. -/
def Instruction.number? : Instruction → Option Word
  | .load (.constant value) => some value
  | _ => none

/-- The numbers that code loads, in order. -/
def loadedNumbers (code : List Instruction) : List Word :=
  code.filterMap Instruction.number?

theorem mem_loadedNumbers_iff {value : Word} {code : List Instruction} :
    value ∈ loadedNumbers code ↔ Instruction.load (.constant value) ∈ code := by
  rw [loadedNumbers, List.mem_filterMap]
  constructor
  · rintro ⟨i, hi, hnumber⟩
    cases i with
    | load address =>
        cases address with
        | constant other =>
            cases hnumber
            exact hi
        | symbol name => cases hnumber
    | _ => cases hnumber
  · intro hi
    exact ⟨_, hi, rfl⟩

/-- The numbers that it takes to reach a word of a segment. -/
def Segment.loads (segment : Segment) (index : Word) : List Word :=
  match segment with
  | .static | .pointer => []
  | .temp => [BitVec.ofNat 16 (tempBase + index.toNat)]
  | _ => [index]

/-- The numbers that a command needs. -/
def Command.loads : Command → List Word
  | .push segment index | .pop segment index => segment.loads index
  | .call _ args => [args + frameSize]
  | .ret => [frameSize]
  | _ => []

theorem loadedNumbers_enter (name : String) (locals : Word) :
    loadedNumbers (Lowering.enter name locals) = [] := by
  have hzero : ∀ i ∈ Lowering.pushZero, i.number? = none := by decide
  refine List.filterMap_eq_nil_iff.mpr ?_
  intro i hi
  rcases List.mem_cons.mp hi with rfl | hi
  · rfl
  · exact hzero i (mem_pushZero_of_mem_flatten hi)

/-- Code loads the numbers that its command needs, and no others. -/
theorem Lowers.loadedNumbers_eq {options : Options} {ctx ctx' : Context} {command : Command}
    {code : List Instruction} (h : Lowers options ctx command code ctx') :
    loadedNumbers code = command.loads := by
  cases h with
  | push hbounds haccess =>
      rename_i segment index access
      cases segment with
      | temp =>
          rw [Store.ofSegment_temp hbounds] at haccess
          cases haccess
          rfl
      | _ =>
          cases haccess
          rfl
  | pop hbounds haccess hpop =>
      rename_i segment index access
      cases segment with
      | temp =>
          rw [Store.ofSegment_temp hbounds] at haccess
          cases haccess
          cases hpop
          rfl
      | constant =>
          cases haccess
          cases hpop
      | _ =>
          cases haccess
          cases hpop
          rfl
  | inPlace hop hcode =>
      rename_i op
      cases op with
      | eq | gt | lt => cases hop
      | _ =>
          cases hcode
          rfl
  | function name locals => exact loadedNumbers_enter name locals
  | _ => rfl

end Numbers

section Bounds

/-- The index of a command in a segment with a base, if no load can hold it. -/
def Command.farIndex? : Command → Option Word
  | .push segment index | .pop segment index =>
      if segment.hasBase && 32767 < index.toNat then some index else none
  | _ => none

/-- Within the extent of a segment, a number that is too large is the index, and
    the segment has a base. -/
theorem Segment.mem_loads_iff {segment : Segment} {index value : Word}
    (hbounds : Command.checkSegment segment index = .ok ()) :
    (value ∈ segment.loads index ∧ 32767 < value.toNat) ↔
      (if segment.hasBase && 32767 < index.toNat then some index else none) = some value := by
  cases segment with
  | constant =>
      have hle : index.toNat ≤ 32767 := Command.checkIndex_eq_ok_iff.mp hbounds
      simp only [loads, hasBase, List.mem_singleton]
      constructor
      · rintro ⟨rfl, hlarge⟩
        omega
      · rintro ⟨⟩
  | temp =>
      -- The temporaries lie in the cells from five to twelve.
      have hle : index.toNat ≤ 7 := Command.checkIndex_eq_ok_iff.mp hbounds
      simp only [loads, hasBase, tempBase, List.mem_singleton]
      constructor
      · rintro ⟨rfl, hlarge⟩
        rw [BitVec.toNat_ofNat] at hlarge
        omega
      · rintro ⟨⟩
  | static | pointer => simp [loads, hasBase]
  | locals | arguments | this | that =>
      -- The bounds say nothing here, and any index passes.
      simp only [loads, hasBase, List.mem_singleton, Bool.true_and, decide_eq_true_eq,
        Option.ite_none_right_eq_some, Option.some.injEq]
      constructor
      · rintro ⟨rfl, hlarge⟩
        exact ⟨hlarge, rfl⟩
      · rintro ⟨hlarge, rfl⟩
        exact ⟨rfl, hlarge⟩

/-- Within the bounds of a command, a number that is too large is an index in a
    segment with a base. -/
theorem Command.mem_loads_iff {command : Command} {value : Word}
    (hbounds : command.checkBounds = .ok ()) :
    (value ∈ command.loads ∧ 32767 < value.toNat) ↔ command.farIndex? = some value := by
  cases command with
  | push segment index => exact Segment.mem_loads_iff hbounds
  | pop segment index => exact Segment.mem_loads_iff hbounds
  | call name args =>
      -- The limit of a call is that of a constant, less the words of the frame.
      have hle : args.toNat ≤ 32762 := checkIndex_eq_ok_iff.mp hbounds
      have hsum : (args + frameSize).toNat = args.toNat + 5 := by
        rw [BitVec.toNat_add, Nat.mod_eq_of_lt]
        · rfl
        · have hframe : frameSize.toNat = 5 := rfl
          omega
      simp only [loads, farIndex?, List.mem_singleton]
      constructor
      · rintro ⟨rfl, hlarge⟩
        omega
      · rintro ⟨⟩
  | ret =>
      simp only [loads, farIndex?, List.mem_singleton]
      constructor
      · rintro ⟨rfl, hlarge⟩
        exact absurd hlarge (by decide)
      · rintro ⟨⟩
  | _ => simp [loads, farIndex?]

/-- The bounds let such an index pass, and its command has code. -/
theorem exists_lower_of_farIndex? {command : Command} (options : Options) (ctx : Context)
    {index : Word} (h : command.farIndex? = some index) :
    ∃ code, lower options ctx command = .ok (.ok code, ctx) := by
  cases command with
  | push segment _ =>
      cases segment with
      | locals | arguments | this | that => exact ⟨_, rfl⟩
      | _ => cases h
  | pop segment _ =>
      cases segment with
      | locals | arguments | this | that => exact ⟨_, rfl⟩
      | _ => cases h
  | _ => cases h

/-- The code of such a command begins with the load of the index. It is short and
    declares nothing. -/
theorem Lowers.starts_with_farIndex {options : Options} {ctx ctx' : Context} {command : Command}
    {code : List Instruction} {index : Word} (h : Lowers options ctx command code ctx')
    (hfar : command.farIndex? = some index) :
    ∃ rest, code = Instruction.load (.constant index) :: rest ∧ codeSize code ≤ 12 ∧
      declaredLabels code = [] := by
  cases h with
  | push hbounds haccess =>
      rename_i segment _ _
      have hindex := (Option.ite_none_right_eq_some.mp hfar).2
      cases segment with
      | locals | arguments | this | that =>
          cases haccess
          cases hindex
          exact ⟨_, rfl, Nat.le_of_ble_eq_true rfl, rfl⟩
      | _ => cases hfar
  | pop hbounds haccess hpop =>
      rename_i segment _ _
      have hindex := (Option.ite_none_right_eq_some.mp hfar).2
      cases segment with
      | locals | arguments | this | that =>
          cases haccess
          cases hpop
          cases hindex
          exact ⟨_, rfl, Nat.le_of_ble_eq_true rfl, rfl⟩
      | _ => cases hfar
  | _ => cases hfar

end Bounds

section Assembling

variable {text value : String} {line : Nat}

/-- A number that the assembler refuses stands in the text and is too large. -/
theorem large_of_constantTooLarge (h : assemble text = .error (.constantTooLarge line value)) :
    ∃ operand, Statement.load operand ∈ (statements text).map (·.statement) ∧
      Text.isNumeral operand = true ∧ 32767 < Text.numeralValue operand ∧
      value = String.ofList operand := by
  rcases assemble_eq_error h with ⟨before, n, after, hsplit, ⟨s, -, hfail⟩ | ⟨s, hfail⟩⟩
  · -- The first pass does not look at numbers.
    rcases Labelling.add_eq_error hfail with hoverflow | ⟨_, _, _, hduplicate⟩
    · cases hoverflow
    · cases hduplicate
  · rcases Resolving.add_eq_error hfail with
      hoverflow | ⟨code, hunreadable⟩ | ⟨operand, hn, hnumeral, hlarge, herror⟩
    · cases hoverflow
    · cases hunreadable
    · cases herror
      refine ⟨operand, ?_, hnumeral, hlarge, rfl⟩
      rw [hsplit, List.map_append, List.map_cons, hn]
      exact List.mem_append_right _ List.mem_cons_self

/-- A statement that loads a numeral comes from an instruction that loads a
    number, for no name is a numeral. -/
theorem Instruction.eq_load_of_isNumeral {i : Instruction} {operand : List Char}
    (hlegible : i.Legible) (hi : i.statement? = some (.load operand))
    (hnumeral : Text.isNumeral operand = true) :
    ∃ number, i = .load (.constant number) ∧ operand = (Word.numeral number).toList := by
  cases i with
  | load address =>
      cases hi
      cases address with
      | constant number => exact ⟨number, rfl, rfl⟩
      | symbol name =>
          rw [Address.render, not_isNumeral_of_isName hlegible] at hnumeral
          cases hnumeral
  | _ => cases hi

/-- Code that begins with the load of a number that is too large is refused for
    it, if it gets past the first pass. -/
theorem constantTooLarge_of_load {value : Word} {rest : List Instruction}
    (hlegible : ∀ i ∈ Instruction.load (.constant value) :: rest, i.Legible)
    (hsize : codeSize (Instruction.load (.constant value) :: rest) ≤ 65535)
    (hlabels : declaredLabels (Instruction.load (.constant value) :: rest) = [])
    (hlarge : 32767 < value.toNat) :
    ∃ line, assemble (Text.unlines ((Instruction.load (.constant value) :: rest).map
      Instruction.render)) = .error (.constantTooLarge line (Word.numeral value)) := by
  have hstatements := statements_unlines hlegible
  generalize Text.unlines _ = text at hstatements ⊢
  have hfirst : ∃ first, (statements text).foldlM Labelling.add .initial = .ok first := by
    refine foldlM_labels_succeeds ?_ ?_ ?_
    · rw [hstatements, codeCount_statements]
      exact (Nat.zero_add _).trans_le hsize
    · rw [hstatements, labelNames_statements, hlabels]
      exact List.nodup_nil
    · rw [hstatements, labelNames_statements, hlabels]
      intro name hname
      cases hname
  rcases hfirst with ⟨first, hfirst⟩
  -- The first statement is the load, and the second pass starts with it.
  rcases List.map_eq_cons_iff.mp hstatements with ⟨n, after, hns, hn, -⟩
  have hadd : (Resolving.initial first.symbols).add n =
      .error (.constantTooLarge n.line (Word.numeral value)) := by
    have hne : value.toNat.repr.toList.isEmpty = false :=
      List.isEmpty_eq_false_iff.mpr (Text.repr_ne_nil value.toNat)
    have hread : Text.readNumeral? maxLoad value.toNat.repr.toList = none := by
      rw [Text.readNumeral?, Text.numeralValue_repr, if_neg]
      rw [Bool.and_eq_true, decide_eq_true_eq]
      exact fun hle => Nat.not_le_of_lt hlarge hle.2
    unfold Resolving.add
    simp only [hn, Address.render, Word.numeral, Resolving.load, hne, Text.isNumeral_repr, hread,
      if_true, String.ofList_toList, Bool.false_eq_true, if_false]
  refine ⟨n.line, ?_⟩
  simp only [assemble, labelStatements, hfirst, resolveStatements]
  rw [hns]
  simp only [Except.map, Except.bind, List.foldlM_cons, hadd]
  rfl

end Assembling

/-- A load holds 15 bits, and the bounds of a command see to that except in the
    segments with a base. There an index from 32768 on is let through and has code,
    in any context. The code of any command loads a number beyond 15 bits exactly
    if the command has such an index, and the number is the index; and if the names
    are names, the assembler refuses a number of the code exactly then. -/
theorem far_index_escapes_bounds (options : Options) (ctx : Context) (command : Command) :
    (∀ index, command.farIndex? = some index →
      ∃ code, lower options ctx command = .ok (.ok code, ctx)) ∧
    ∀ code ctx', lower options ctx command = .ok (.ok code, ctx') →
      (∀ value, (Instruction.load (.constant value) ∈ code ∧ 32767 < value.toNat) ↔
        command.farIndex? = some value) ∧
      ((∀ name, command.name? = some name → isName name = true) → isName ctx.unit = true →
        (∀ name, ctx.function? = some name → isName name = true) →
        ∀ numeral, (∃ line, assemble (Text.unlines (code.map Instruction.render)) =
            .error (.constantTooLarge line numeral)) ↔
          ∃ index, command.farIndex? = some index ∧ numeral = Word.numeral index) := by
  refine ⟨fun index hfar => exists_lower_of_farIndex? options ctx hfar, ?_⟩
  intro code ctx' hlower
  have hlowers := lowers_of_lower hlower
  have hlarge : ∀ value, (Instruction.load (.constant value) ∈ code ∧ 32767 < value.toNat) ↔
      command.farIndex? = some value := by
    intro value
    rw [← mem_loadedNumbers_iff, hlowers.loadedNumbers_eq]
    exact Command.mem_loads_iff (lower_eq_ok_ok_iff.mp hlower).1
  refine ⟨hlarge, ?_⟩
  intro hnames hunit hfunction numeral
  have hlegible := hlowers.legible hnames hunit hfunction
  constructor
  · rintro ⟨line, herror⟩
    rcases large_of_constantTooLarge herror with ⟨operand, hmem, hnumeral, hvalue, rfl⟩
    rw [statements_unlines hlegible] at hmem
    rcases List.mem_filterMap.mp hmem with ⟨i, hi, hstatement⟩
    -- What the assembler takes for a number was a number before it was text.
    rcases Instruction.eq_load_of_isNumeral (hlegible i hi) hstatement hnumeral with
      ⟨value, rfl, rfl⟩
    rw [Word.numeral, Text.numeralValue_repr] at hvalue
    exact ⟨value, (hlarge value).mp ⟨hi, hvalue⟩, String.ofList_toList⟩
  · rintro ⟨index, hfar, rfl⟩
    rcases hlowers.starts_with_farIndex hfar with ⟨rest, rfl, hsize, hlabels⟩
    have hindex := ((hlarge index).mpr hfar).2
    exact constantTooLarge_of_load hlegible (by omega) hlabels hindex

theorem far_index_escapes_bounds_that :
    (Command.pop .that 32768).checkBounds = .ok () ∧
    ∃ code, lower .default (.initial "Main") (.pop .that 32768) =
        .ok (.ok code, .initial "Main") ∧
      Instruction.load (.constant 32768) ∈ code ∧
      ∃ line, assemble (Text.unlines (code.map Instruction.render)) =
        .error (.constantTooLarge line "32768") := by
  rcases far_index_escapes_bounds .default (.initial "Main") (.pop .that 32768) with
    ⟨hpasses, hcode⟩
  rcases hpasses 32768 rfl with ⟨code, hlower⟩
  rcases hcode code _ hlower with ⟨hlarge, hrefused⟩
  refine ⟨rfl, code, hlower, ((hlarge 32768).mpr rfl).1, ?_⟩
  refine (hrefused ?_ (by decide) ?_ "32768").mpr ⟨32768, rfl, by decide⟩
  · intro name hname
    cases hname
  · intro name hname
    cases hname

/-- An index is within the bounds, its command has code, and the code cannot be
    assembled. -/
theorem far_index_refused :
    (Command.push .locals 40000).checkBounds = .ok () ∧
    ∃ code, lower .default (.initial "Main") (.push .locals 40000) =
        .ok (.ok code, .initial "Main") ∧
      Instruction.load (.constant 40000) ∈ code ∧
      ∃ line, assemble (Text.unlines (code.map Instruction.render)) =
        .error (.constantTooLarge line "40000") := by
  refine ⟨rfl, _, rfl, List.mem_cons_self, ?_⟩
  exact @constantTooLarge_of_load 40000 _ (by decide) (by decide) rfl (by decide)

end HackVM
