import HackVM.Image.Assembler
import Mathlib.Data.List.Nodup

/-!
# The Two Passes

What each pass of the assembler makes of a list of statements.

Both passes are described by functions of the statements alone. A label stands
at a position, the number of instructions in front of it, and the symbols that
are loaded before anything is known of them are the variables, in the order of
their first use. The first pass succeeds exactly when the labels are new and
the addresses suffice, and then binds every label to its position. The second
succeeds exactly when every statement can be read and the cells suffice, and
then binds the variables one after the other.

A code word is described by the final table, although the second pass writes
it with the table it has at the time. This is the same word, because a binding
is never changed: later tables extend earlier ones.

## Main definitions

* `Statement.isCode`: The statement becomes a word of code.
* `labelNames`, `labelPosition?`: The labels and where they stand.
* `newNames`: The symbols that a table does not know yet.
* `variableNames`: The variables of a program.
* `symbolAddress?`: What a symbol of a program stands for.
* `Statement.Readable`: What the second pass demands of a statement.
* `Statement.word?`: The word of a statement under a table.
* `Image.Realizes`: The image is what statements say.

## Theorems

* `labels_of_foldlM`: What the first pass counts and binds.
* `foldlM_labels_succeeds`: When the first pass succeeds.
* `Resolving.add_cases`: What a step of the second pass does.
* `resolve_of_foldlM`: What the second pass writes and binds.
* `foldlM_resolve_succeeds`: When the second pass succeeds.
* `SymbolTable.find?_predefined`: The names every program starts with.
* `Image.Realizes.find?_label`: The addresses of labels.
* `realizes_of_assemble`: An assembled image is what its text says.
* `assemble_succeeds`: When a text has an image.
* `Labelling.add_eq_error`, `Resolving.add_eq_error`: The failures of one step.
* `assemble_eq_error`: Where a text without an image fails.
-/

namespace HackVM

namespace Statement

/-- The statement becomes a word of code. -/
def isCode : Statement → Bool
  | .label _ => false
  | _ => true

/-- The label that a statement declares. -/
def labelName? : Statement → Option String
  | .label name => some name
  | _ => none

/-- The symbol that a statement loads. -/
def operandName? : Statement → Option String
  | .load operand => if Text.isNumeral operand then none else some (String.ofList operand)
  | _ => none

/-- The second pass can make something of the statement. -/
def Readable : Statement → Prop
  | .label _ => True
  | .load operand =>
      operand ≠ [] ∧ (Text.isNumeral operand = true → Text.numeralValue operand ≤ maxLoad)
  | .compute code => (Computation.parse? code).isSome = true

instance : DecidablePred Readable
  | .label _ => isTrue trivial
  | .load operand => inferInstanceAs (Decidable
      (operand ≠ [] ∧ (Text.isNumeral operand = true → Text.numeralValue operand ≤ maxLoad)))
  | .compute code => inferInstanceAs (Decidable ((Computation.parse? code).isSome = true))

/-- The word of a statement, whose symbol is looked up in a table. -/
def word? (symbols : SymbolTable) : Statement → Option CodeWord
  | .label _ => none
  | .load operand =>
      if Text.isNumeral operand then some (.load (BitVec.ofNat 16 (Text.numeralValue operand)))
      else (symbols.find? (String.ofList operand)).map .load
  | .compute code => (Computation.parse? code).map .compute

theorem operandName?_load {operand : List Char} (h : ¬Text.isNumeral operand = true) :
    (load operand).operandName? = some (String.ofList operand) := by
  rw [operandName?, if_neg h]

theorem word?_load {operand : List Char} (h : ¬Text.isNumeral operand = true)
    (symbols : SymbolTable) :
    (load operand).word? symbols = (symbols.find? (String.ofList operand)).map .load := by
  rw [word?, if_neg h]

end Statement

/-- The number of words that statements become. -/
def codeCount (ss : List Statement) : Nat :=
  ss.countP Statement.isCode

/-- The labels that statements declare, in order. -/
def labelNames (ss : List Statement) : List String :=
  ss.filterMap Statement.labelName?

/-- The number of words in front of a label. -/
def labelPosition? (name : String) : List Statement → Option Nat
  | [] => none
  | .label other :: ss => if other = name then some 0 else labelPosition? name ss
  | _ :: ss => (labelPosition? name ss).map (· + 1)

theorem codeCount_cons (s : Statement) (ss : List Statement) :
    codeCount (s :: ss) = codeCount ss + if s.isCode then 1 else 0 := by
  rw [codeCount, List.countP_cons]
  rfl

theorem labelPosition?_cons_of_isCode {s : Statement} (h : s.isCode = true) (name : String)
    (ss : List Statement) :
    labelPosition? name (s :: ss) = (labelPosition? name ss).map (· + 1) := by
  cases s with
  | label other => cases h
  | load operand => rfl
  | compute code => rfl

theorem labelNames_cons_of_isCode {s : Statement} (h : s.isCode = true) (ss : List Statement) :
    labelNames (s :: ss) = labelNames ss := by
  cases s with
  | label other => cases h
  | load operand => rfl
  | compute code => rfl

/-- A label has a position when it is declared. -/
theorem isSome_labelPosition? {name : String} {ss : List Statement} :
    (labelPosition? name ss).isSome = true ↔ name ∈ labelNames ss := by
  induction ss with
  | nil => simp [labelPosition?, labelNames]
  | cons s ss ih =>
      by_cases hs : s.isCode = true
      · rw [labelPosition?_cons_of_isCode hs, labelNames_cons_of_isCode hs, Option.isSome_map, ih]
      · cases s with
        | label other =>
            show (if other = name then some 0 else labelPosition? name ss).isSome = true ↔
              name ∈ other :: labelNames ss
            by_cases h : other = name
            · simp [h]
            · rw [if_neg h, ih, List.mem_cons]
              exact ⟨Or.inr, fun hmem => hmem.resolve_left fun heq => h heq.symm⟩
        | load operand => exact absurd rfl hs
        | compute code => exact absurd rfl hs

/-- A label stands behind the words before it. -/
theorem labelPosition?_append {name : String} {before after : List Statement}
    (h : name ∉ labelNames before) :
    labelPosition? name (before ++ .label name :: after) = some (codeCount before) := by
  induction before with
  | nil =>
      show (if name = name then some 0 else _) = some 0
      rw [if_pos rfl]
  | cons s before ih =>
      rw [List.cons_append, codeCount_cons]
      by_cases hs : s.isCode = true
      · rw [labelNames_cons_of_isCode hs] at h
        rw [labelPosition?_cons_of_isCode hs, ih h, if_pos hs]
        rfl
      · cases s with
        | label other =>
            have hne : other ≠ name := by
              rintro rfl
              exact h List.mem_cons_self
            show (if other = name then some 0 else labelPosition? name _) = _
            rw [if_neg hne]
            exact ih fun hmem => h (List.mem_cons_of_mem other hmem)
        | load operand => exact absurd rfl hs
        | compute code => exact absurd rfl hs

theorem Counter.following_eq_ok_iff {c c' : AddressCounter} :
    c.following = .ok c' ↔ c.value < 65535 ∧ c'.value = c.value + 1 := by
  have hnext : c.following = .ok c' ↔ c.next = .ok c' := by
    unfold Counter.following
    cases c.next with
    | ok following => simp only [Except.ok.injEq]
    | error overflow => simp only [reduceCtorEq]
  have hle := c'.value_le
  rw [hnext, Counter.next_eq_ok_iff]
  constructor
  · intro hvalue
    exact ⟨by omega, hvalue⟩
  · intro hvalue
    exact hvalue.2

/-- Counting from one further on, a place comes one earlier. -/
theorem map_add_succ (base : Nat) (place? : Option Nat) :
    ((place?.map (· + 1)).map fun k => BitVec.ofNat 16 (base + k)) =
      place?.map fun k => BitVec.ofNat 16 (base + 1 + k) := by
  rw [Option.map_map]
  congr 1
  funext k
  show BitVec.ofNat 16 (base + (k + 1)) = BitVec.ofNat 16 (base + 1 + k)
  rw [Nat.add_assoc, Nat.add_comm 1 k]

section FirstPass

variable {s s' : Labelling} {n : NumberedStatement} {ns : List NumberedStatement}

/-- A step over an instruction counts it. -/
theorem Labelling.add_code_iff (hn : n.statement.isCode = true) :
    s.add n = .ok s' ↔ s'.symbols = s.symbols ∧ s.nextAddress.value < 65535 ∧
      s'.nextAddress.value = s.nextAddress.value + 1 := by
  have hadd : s.add n = s.nextAddress.following.map fun following =>
      { s with nextAddress := following } := by
    unfold Labelling.add
    cases hs : n.statement with
    | label name => rw [hs] at hn; cases hn
    | load operand => rfl
    | compute code => rfl
  rw [hadd, map_eq_ok_iff]
  constructor
  · rintro ⟨following, hfollowing, rfl⟩
    exact ⟨rfl, Counter.following_eq_ok_iff.mp hfollowing⟩
  · rintro ⟨hsymbols, hnext⟩
    refine ⟨s'.nextAddress, Counter.following_eq_ok_iff.mpr hnext, ?_⟩
    rw [← hsymbols]

/-- A step over a label binds it, if it is new. -/
theorem Labelling.add_label_iff {name : String} (hn : n.statement = .label name) :
    s.add n = .ok s' ↔ s.symbols.find? name = none ∧
      s' = { s with symbols := s.symbols.bind name s.nextAddress.address } := by
  unfold Labelling.add
  cases hfind : s.symbols.find? name with
  | none =>
      simp only [hn, hfind]
      constructor
      · intro h
        cases h
        exact ⟨trivial, rfl⟩
      · rintro ⟨-, rfl⟩
        rfl
  | some address =>
      simp only [hn, hfind]
      constructor
      · intro h
        cases h
      · rintro ⟨h, -⟩
        cases h

/-- The first pass: it counts the instructions, and binds each label, which must
    be new, to the count it has reached. -/
theorem labels_of_foldlM (h : ns.foldlM Labelling.add s = .ok s') :
    s'.nextAddress.value = s.nextAddress.value + codeCount (ns.map (·.statement)) ∧
    (labelNames (ns.map (·.statement))).Nodup ∧
    (∀ name ∈ labelNames (ns.map (·.statement)), s.symbols.find? name = none) ∧
    ∀ name, s'.symbols.find? name = (s.symbols.find? name).or
      ((labelPosition? name (ns.map (·.statement))).map fun k =>
        BitVec.ofNat 16 (s.nextAddress.value + k)) := by
  induction ns generalizing s with
  | nil =>
      cases h
      refine ⟨rfl, List.nodup_nil, ?_, ?_⟩
      · intro name hname
        cases hname
      · intro name
        simp [labelPosition?]
  | cons n ns ih =>
      -- The rest starts from the table and the count that the step leaves.
      rcases foldlM_cons_eq_ok_iff.mp h with ⟨mid, hstep, hrest⟩
      rcases ih hrest with ⟨hcount, hnodup, hnew, hfind⟩
      rw [List.map_cons, codeCount_cons]
      by_cases hn : n.statement.isCode = true
      · rcases (Labelling.add_code_iff hn).mp hstep with ⟨hsymbols, -, hnext⟩
        rw [hsymbols, hnext] at hfind
        rw [labelNames_cons_of_isCode hn, if_pos hn]
        refine ⟨by omega, hnodup, hsymbols ▸ hnew, fun name => ?_⟩
        rw [hfind, labelPosition?_cons_of_isCode hn, map_add_succ]
      · cases hs : n.statement with
        | label label =>
            rcases (Labelling.add_label_iff hs).mp hstep with ⟨hfresh, rfl⟩
            simp only [SymbolTable.find?_bind] at hnew hfind
            -- Were it declared again, the rest would find it bound.
            have hnot : label ∉ labelNames (ns.map (·.statement)) := by
              intro hmem
              have := hnew label hmem
              rw [if_pos rfl] at this
              cases this
            refine ⟨by simpa [Statement.isCode] using hcount, ?_, ?_, fun name => ?_⟩
            · exact List.nodup_cons.mpr ⟨hnot, hnodup⟩
            · intro name hname
              rcases List.mem_cons.mp hname with rfl | hname
              · exact hfresh
              · have := hnew name hname
                rwa [if_neg (by rintro rfl; exact hnot hname)] at this
            · -- The label itself was new, and any other name is left to the rest.
              rw [hfind, labelPosition?]
              by_cases hname : label = name
              · subst hname
                rw [if_pos rfl, if_pos rfl, hfresh]
                rfl
              · rw [if_neg hname, if_neg hname]
        | load operand => exact absurd (by rw [hs]; rfl) hn
        | compute code => exact absurd (by rw [hs]; rfl) hn

/-- The first pass succeeds if the labels are new and the addresses suffice. -/
theorem foldlM_labels_succeeds
    (hcount : s.nextAddress.value + codeCount (ns.map (·.statement)) ≤ 65535)
    (hnodup : (labelNames (ns.map (·.statement))).Nodup)
    (hnew : ∀ name ∈ labelNames (ns.map (·.statement)), s.symbols.find? name = none) :
    ∃ s', ns.foldlM Labelling.add s = .ok s' := by
  induction ns generalizing s with
  | nil => exact ⟨s, rfl⟩
  | cons n ns ih =>
      rw [List.map_cons, codeCount_cons] at hcount
      by_cases hn : n.statement.isCode = true
      · rw [if_pos hn] at hcount
        rw [List.map_cons, labelNames_cons_of_isCode hn] at hnodup hnew
        have hlt : s.nextAddress.value < 65535 := by omega
        have hstep : s.add n = .ok { s with nextAddress := ⟨s.nextAddress.value + 1, hlt⟩ } :=
          (Labelling.add_code_iff hn).mpr ⟨rfl, hlt, rfl⟩
        have hcount' : s.nextAddress.value + 1 + codeCount (ns.map (·.statement)) ≤ 65535 := by
          omega
        rcases ih (s := { s with nextAddress := ⟨_, hlt⟩ }) hcount' hnodup hnew with ⟨s', hs'⟩
        exact ⟨s', foldlM_cons_eq_ok_iff.mpr ⟨_, hstep, hs'⟩⟩
      · cases hs : n.statement with
        | label label =>
            rw [hs] at hcount
            rw [List.map_cons, hs] at hnodup hnew
            have hcons := List.nodup_cons.mp hnodup
            have hstep := (Labelling.add_label_iff hs).mpr
              ⟨hnew label List.mem_cons_self, rfl⟩
            have hnew' : ∀ name ∈ labelNames (ns.map (·.statement)),
                (s.symbols.bind label s.nextAddress.address).find? name = none := by
              intro name hname
              rw [SymbolTable.find?_bind, if_neg (by rintro rfl; exact hcons.1 hname)]
              exact hnew name (List.mem_cons_of_mem label hname)
            rcases ih (s := { s with symbols := s.symbols.bind label s.nextAddress.address })
              (by simpa [Statement.isCode] using hcount) hcons.2 hnew' with ⟨s', hs'⟩
            exact ⟨s', foldlM_cons_eq_ok_iff.mpr ⟨_, hstep, hs'⟩⟩
        | load operand => exact absurd (by rw [hs]; rfl) hn
        | compute code => exact absurd (by rw [hs]; rfl) hn

end FirstPass

/-- The symbols that statements load and a table does not know, each once, in
    the order of their first use. -/
def newNames (symbols : SymbolTable) (ss : List Statement) : List String :=
  ((ss.filterMap Statement.operandName?).filter fun name => (symbols.find? name).isNone).eraseDups

/-- Every name that one table binds is bound to the same address by another. -/
def SymbolTable.Extends (larger smaller : SymbolTable) : Prop :=
  ∀ name address, smaller.find? name = some address → larger.find? name = some address

/-- A statement keeps its word while the table grows. -/
theorem Statement.word?_of_extends {symbols larger : SymbolTable} {st : Statement} {w : CodeWord}
    (hext : larger.Extends symbols) (h : st.word? symbols = some w) : st.word? larger = some w := by
  cases st with
  | label name => exact h
  | load operand =>
      rw [word?] at h ⊢
      by_cases hnum : Text.isNumeral operand = true
      · rw [if_pos hnum] at h ⊢
        exact h
      · rw [if_neg hnum] at h ⊢
        rcases Option.map_eq_some_iff.mp h with ⟨address, hfind, rfl⟩
        rw [hext _ _ hfind]
        rfl
  | compute code => exact h

section SecondPass

variable {s s' : Resolving} {n : NumberedStatement} {ns : List NumberedStatement}

/-- What a step of the second pass does: it writes the word of the statement,
    and the table and the cells change only over a symbol that is new. -/
theorem Resolving.add_cases (h : s.add n = .ok s') :
    n.statement.Readable ∧
    s'.code.toList = s.code.toList ++ (n.statement.word? s'.symbols).toList ∧
    (n.statement.word? s'.symbols).isSome = n.statement.isCode ∧
    ((∃ name, n.statement.operandName? = some name ∧ s.symbols.find? name = none ∧
        s'.symbols = s.symbols.bind name s.nextVariable.address ∧
        s'.nextVariable.value = s.nextVariable.value + 1) ∨
      ((∀ name, n.statement.operandName? = some name → (s.symbols.find? name).isSome = true) ∧
        s'.symbols = s.symbols ∧ s'.nextVariable = s.nextVariable)) := by
  unfold Resolving.add at h
  cases hs : n.statement with
  | label name =>
      simp only [hs] at h
      cases h
      refine ⟨trivial, (List.append_nil _).symm, rfl, Or.inr ⟨?_, rfl, rfl⟩⟩
      intro name hname
      cases hname
  | compute code =>
      simp only [hs] at h
      split at h
      · next c hc =>
          cases h
          refine ⟨?_, ?_, ?_, Or.inr ⟨?_, rfl, rfl⟩⟩
          · rw [Statement.Readable, hc]
            rfl
          · simp [Resolving.emit, Statement.word?, hc]
          · simp [Statement.word?, hc, Statement.isCode]
          · intro name hname
            cases hname
      · cases h
  | load operand =>
      simp only [hs, Resolving.load] at h
      split at h
      · cases h
      · next hne =>
          have hnonempty : operand ≠ [] := by simpa using hne
          split at h
          · -- A number is its own value and needs no table.
            next hnum =>
              unfold Text.readNumeral? at h
              by_cases hmax : Text.numeralValue operand ≤ maxLoad
              · simp only [hnum, hmax, decide_true, Bool.and_self, if_true] at h
                cases h
                refine ⟨⟨hnonempty, fun _ => hmax⟩, ?_, ?_, Or.inr ⟨?_, rfl, rfl⟩⟩
                · simp [Resolving.emit, Statement.word?, hnum]
                · simp [Statement.word?, hnum, Statement.isCode]
                · intro name hname
                  simp [Statement.operandName?, hnum] at hname
              · simp only [hmax, decide_false, Bool.and_false, Bool.false_eq_true, if_false] at h
                cases h
          · next hnum =>
              have hreadable : (Statement.load operand).Readable :=
                ⟨hnonempty, fun hnum' => absurd hnum' hnum⟩
              have hname := Statement.operandName?_load hnum
              have hword := Statement.word?_load hnum
              unfold Resolving.loadSymbol at h
              split at h
              · -- A known symbol is loaded as it stands.
                next address hfind =>
                  cases h
                  refine ⟨hreadable, ?_, ?_, Or.inr ⟨?_, rfl, rfl⟩⟩
                  · simp [Resolving.emit, hword, hfind]
                  · simp [Resolving.emit, hword, hfind, Statement.isCode]
                  · intro name hname'
                    rw [hname] at hname'
                    cases hname'
                    rw [hfind]
                    rfl
              · -- An unknown one takes the next cell.
                next hfind =>
                  rcases map_eq_ok_iff.mp h with ⟨following, hfollowing, rfl⟩
                  have hnext := Counter.following_eq_ok_iff.mp hfollowing
                  refine ⟨hreadable, ?_, ?_, Or.inl ⟨_, hname, hfind, rfl, hnext.2⟩⟩
                  · simp [hword, SymbolTable.find?_bind]
                  · simp [hword, SymbolTable.find?_bind, Statement.isCode]

/-- A step succeeds over a statement that can be read, if there is a cell for a
    symbol that is new. -/
theorem Resolving.add_succeeds (hread : n.statement.Readable)
    (hcell : ∀ name, n.statement.operandName? = some name → s.symbols.find? name = none →
      s.nextVariable.value < 65535) : ∃ s', s.add n = .ok s' := by
  unfold Resolving.add
  cases hs : n.statement with
  | label name => exact ⟨s, rfl⟩
  | compute code =>
      rw [hs] at hread
      rcases Option.isSome_iff_exists.mp hread with ⟨c, hc⟩
      exact ⟨s.emit (.compute c), by simp only [hc]⟩
  | load operand =>
      rw [hs] at hread hcell
      rcases hread with ⟨hne, hmax⟩
      have hempty : operand.isEmpty = false := by simpa using hne
      simp only [Resolving.load, hempty, Bool.false_eq_true, if_false]
      by_cases hnum : Text.isNumeral operand = true
      · have hvalue : Text.readNumeral? maxLoad operand = some (Text.numeralValue operand) := by
          simp only [Text.readNumeral?, hnum, hmax hnum, decide_true, Bool.and_self, if_true]
        rw [if_pos hnum, hvalue]
        exact ⟨_, rfl⟩
      · rw [if_neg hnum, Resolving.loadSymbol]
        cases hfind : s.symbols.find? (String.ofList operand) with
        | some address => exact ⟨_, rfl⟩
        | none =>
            have hlt : s.nextVariable.value < 65535 :=
              hcell _ (Statement.operandName?_load hnum) hfind
            have hfollowing : s.nextVariable.following = .ok ⟨s.nextVariable.value + 1, hlt⟩ :=
              Counter.following_eq_ok_iff.mpr ⟨hlt, rfl⟩
            rw [hfollowing]
            exact ⟨_, rfl⟩

theorem newNames_cons_of_bound {symbols : SymbolTable} {st : Statement} {ss : List Statement}
    (h : ∀ name, st.operandName? = some name → (symbols.find? name).isSome = true) :
    newNames symbols (st :: ss) = newNames symbols ss := by
  unfold newNames
  rw [List.filterMap_cons]
  cases hst : st.operandName? with
  | none => rfl
  | some name =>
      have hbound : (symbols.find? name).isNone = false := by
        rw [Option.isNone_eq_false_iff]
        exact h name hst
      show (List.filter _ (name :: _)).eraseDups = _
      rw [List.filter_cons, hbound]
      rfl

/-- A new name comes first, and after it those that are new beside it. -/
theorem newNames_cons_of_new {symbols : SymbolTable} {st : Statement} {ss : List Statement}
    {name : String} (hst : st.operandName? = some name) (hnew : symbols.find? name = none)
    (address : Word) :
    newNames symbols (st :: ss) = name :: newNames (symbols.bind name address) ss := by
  unfold newNames
  rw [List.filterMap_cons, hst]
  show (List.filter _ (name :: _)).eraseDups = _
  rw [List.filter_cons, hnew]
  show (name :: List.filter _ _).eraseDups = _
  -- Dropping a name from the rest and binding it come to the same.
  rw [List.eraseDups_cons, List.filter_filter]
  congr 3
  funext other
  rw [SymbolTable.find?_bind]
  by_cases hother : name = other
  · subst hother
    simp
  · have hne : (other == name) = false := by simpa using fun heq : other = name => hother heq.symm
    rw [if_neg hother, hne]
    simp

/-- The second pass: it writes a word for each instruction, and gives the new
    symbols the cells from the next one on. -/
theorem resolve_of_foldlM (h : ns.foldlM Resolving.add s = .ok s') :
    (∀ st ∈ ns.map (·.statement), st.Readable) ∧
    s'.nextVariable.value =
      s.nextVariable.value + (newNames s.symbols (ns.map (·.statement))).length ∧
    (∀ name, s'.symbols.find? name = (s.symbols.find? name).or
      (((newNames s.symbols (ns.map (·.statement))).idxOf? name).map fun k =>
        BitVec.ofNat 16 (s.nextVariable.value + k))) ∧
    s'.code.toList =
      s.code.toList ++ (ns.map (·.statement)).filterMap (Statement.word? s'.symbols) ∧
    (∀ st ∈ ns.map (·.statement), (st.word? s'.symbols).isSome = st.isCode) := by
  induction ns generalizing s with
  | nil =>
      cases h
      refine ⟨?_, rfl, ?_, (List.append_nil _).symm, ?_⟩
      · intro st hst
        cases hst
      · intro name
        simp [newNames]
      · intro st hst
        cases hst
  | cons n ns ih =>
      rcases foldlM_cons_eq_ok_iff.mp h with ⟨mid, hstep, hrest⟩
      rcases Resolving.add_cases hstep with ⟨hread, hcode, hsome, halloc⟩
      rcases ih hrest with ⟨hreads, hnext, hfind, hcodes, hsomes⟩
      -- What a step binds stays bound.
      have hext : s'.symbols.Extends mid.symbols := by
        intro name address haddress
        rw [hfind, haddress]
        rfl
      -- The word written now is the word under the final table.
      have hword : n.statement.word? s'.symbols = n.statement.word? mid.symbols := by
        cases hw : n.statement.word? mid.symbols with
        | some w => exact Statement.word?_of_extends hext hw
        | none =>
            rw [hw] at hsome
            cases hst : n.statement with
            | label name => rfl
            | load operand => rw [hst] at hsome; cases hsome
            | compute code => rw [hst] at hsome; cases hsome
      have hcode' : s'.code.toList = s.code.toList ++
          ((n :: ns).map (·.statement)).filterMap (Statement.word? s'.symbols) := by
        rw [hcodes, hcode, List.append_assoc, List.map_cons, List.filterMap_cons, hword]
        cases n.statement.word? mid.symbols <;> rfl
      have hreads' : ∀ st ∈ (n :: ns).map (·.statement), st.Readable := by
        intro st hst
        rcases List.mem_cons.mp hst with rfl | hst
        · exact hread
        · exact hreads st hst
      have hsomes' : ∀ st ∈ (n :: ns).map (·.statement),
          (st.word? s'.symbols).isSome = st.isCode := by
        intro st hst
        rcases List.mem_cons.mp hst with rfl | hst
        · rw [hword]
          exact hsome
        · exact hsomes st hst
      rcases halloc with ⟨name, hname, hnew, hsymbols, hvalue⟩ | ⟨hbound, hsymbols, hvalue⟩
      -- A new name is the first of the new ones, and takes the next cell.
      · rw [List.map_cons, newNames_cons_of_new hname hnew s.nextVariable.address, ← hsymbols]
        refine ⟨hreads', ?_, ?_, hcode', hsomes'⟩
        · rw [List.length_cons]
          omega
        · intro other
          rw [hfind, hsymbols, SymbolTable.find?_bind, List.idxOf?_cons]
          by_cases hother : name = other
          · subst hother
            rw [if_pos rfl, hnew, if_pos (beq_self_eq_true name)]
            rfl
          · have hbeq : (name == other) = false := by simpa using hother
            rw [if_neg hother, hbeq, hvalue, if_neg (by decide), map_add_succ]
      · rw [hsymbols, hvalue] at hfind hnext
        rw [List.map_cons, newNames_cons_of_bound hbound]
        exact ⟨hreads', hnext, hfind, hcode', hsomes'⟩

/-- The second pass succeeds if every statement can be read and the cells
    suffice. -/
theorem foldlM_resolve_succeeds (hread : ∀ st ∈ ns.map (·.statement), st.Readable)
    (hcells : s.nextVariable.value + (newNames s.symbols (ns.map (·.statement))).length ≤ 65535) :
    ∃ s', ns.foldlM Resolving.add s = .ok s' := by
  induction ns generalizing s with
  | nil => exact ⟨s, rfl⟩
  | cons n ns ih =>
      have hcell : ∀ name, n.statement.operandName? = some name → s.symbols.find? name = none →
          s.nextVariable.value < 65535 := by
        intro name hname hnew
        rw [List.map_cons, newNames_cons_of_new hname hnew 0, List.length_cons] at hcells
        omega
      rcases Resolving.add_succeeds (hread _ List.mem_cons_self) hcell with ⟨mid, hstep⟩
      rcases Resolving.add_cases hstep with ⟨-, -, -, halloc⟩
      have hcells' : mid.nextVariable.value +
          (newNames mid.symbols (ns.map (·.statement))).length ≤ 65535 := by
        rcases halloc with ⟨name, hname, hnew, hsymbols, hvalue⟩ | ⟨hbound, hsymbols, hvalue⟩
        · rw [List.map_cons, newNames_cons_of_new hname hnew s.nextVariable.address,
            List.length_cons, ← hsymbols] at hcells
          omega
        · rw [List.map_cons, newNames_cons_of_bound hbound] at hcells
          rw [hsymbols, hvalue]
          exact hcells
      rcases ih (fun st hst => hread st (List.mem_cons_of_mem _ hst)) hcells' with ⟨s', hs'⟩
      exact ⟨s', foldlM_cons_eq_ok_iff.mpr ⟨mid, hstep, hs'⟩⟩

end SecondPass

/-- Names bound one after the other are found like entries of a list, if no
    name occurs twice. -/
theorem SymbolTable.find?_foldl_bind (entries : List (String × Word)) (table : SymbolTable)
    (hnodup : (entries.map Prod.fst).Nodup) (name : String) :
    (entries.foldl (fun table entry => table.bind entry.1 entry.2) table).find? name =
      (entries.lookup name).or (table.find? name) := by
  induction entries generalizing table with
  | nil => rfl
  | cons entry entries ih =>
      rcases List.nodup_cons.mp hnodup with ⟨hnot, hnodup⟩
      rw [List.foldl_cons, ih _ hnodup, find?_bind, List.lookup_cons]
      by_cases hname : entry.1 = name
      · subst hname
        have hnone : entries.lookup entry.1 = none := by
          rw [List.lookup_eq_none_iff]
          intro other hother
          rw [bne_iff_ne]
          rintro heq
          exact hnot (heq ▸ List.mem_map_of_mem hother)
        rw [if_pos rfl, hnone, beq_self_eq_true]
        rfl
      · have hbeq : (name == entry.1) = false := by
          simpa using fun heq : name = entry.1 => hname heq.symm
        rw [if_neg hname, hbeq]

/-- The names every program starts with. -/
theorem SymbolTable.find?_predefined (name : String) :
    SymbolTable.predefined.find? name = predefinedSymbols.lookup name := by
  have hnodup : (predefinedSymbols.map Prod.fst).Nodup := by decide
  have hempty : SymbolTable.empty.find? name = none := by
    simp only [SymbolTable.find?, SymbolTable.empty, Std.TreeMap.getElem?_emptyc]
  rw [SymbolTable.predefined, SymbolTable.find?_foldl_bind _ _ hnodup, hempty, Option.or_none]

/-- The variables of a program: the symbols it loads that are neither names of
    the machine nor labels, each once, in the order of their first use. -/
def variableNames (ss : List Statement) : List String :=
  ((ss.filterMap Statement.operandName?).filter fun name =>
    (predefinedSymbols.lookup name).isNone && !(labelNames ss).contains name).eraseDups

/-- What a symbol of a program stands for: a name of the machine its fixed
    address, a label its position, and a variable its cell. -/
def symbolAddress? (ss : List Statement) (name : String) : Option Word :=
  (predefinedSymbols.lookup name).or
    (((labelPosition? name ss).map (BitVec.ofNat 16)).or
      (((variableNames ss).idxOf? name).map fun k => BitVec.ofNat 16 (16 + k)))

/-- The image is what the statements say: their words in order, under a table
    that binds every symbol as it should be. -/
structure Image.Realizes (image : Image) (ss : List Statement) : Prop where
  nodup : (labelNames ss).Nodup
  new : ∀ name ∈ labelNames ss, predefinedSymbols.lookup name = none
  count_le : codeCount ss ≤ 65535
  readable : ∀ st ∈ ss, st.Readable
  find? : ∀ name, image.symbols.find? name = symbolAddress? ss name
  code : image.code.toList = ss.filterMap (Statement.word? image.symbols)
  isSome_word? : ∀ st ∈ ss, (st.word? image.symbols).isSome = st.isCode

/-- A label is bound to the number of words before it, and nowhere else declared. -/
theorem Image.Realizes.find?_label {image : Image} {name : String} {before after : List Statement}
    (h : image.Realizes (before ++ .label name :: after)) :
    (image.symbols.find? name).map BitVec.toNat = some (codeCount before) ∧
      name ∉ labelNames before ∧ name ∉ labelNames after := by
  have hcount := h.count_le
  have hnodup := h.nodup
  have hlabels : labelNames (before ++ .label name :: after) =
      labelNames before ++ name :: labelNames after := by
    rw [labelNames, List.filterMap_append]
    rfl
  rw [hlabels, List.nodup_middle, List.nodup_cons, List.mem_append, not_or] at hnodup
  rcases hnodup with ⟨hother, -⟩
  have hnew : predefinedSymbols.lookup name = none := by
    refine h.new name ?_
    rw [hlabels]
    exact List.mem_append_right _ List.mem_cons_self
  refine ⟨?_, hother⟩
  rw [h.find?, symbolAddress?, hnew, labelPosition?_append hother.1]
  show some (BitVec.ofNat 16 (codeCount before)).toNat = _
  -- The count fits, so nothing is lost when it becomes a word.
  rw [codeCount, List.countP_append, ← codeCount] at hcount
  rw [BitVec.toNat_ofNat, Nat.mod_eq_of_lt (by omega)]

/-- After the first pass the new names are the variables. -/
theorem newNames_eq_variableNames {symbols : SymbolTable} {ss : List Statement}
    (h : ∀ name, symbols.find? name = (predefinedSymbols.lookup name).or
      ((labelPosition? name ss).map (BitVec.ofNat 16))) :
    newNames symbols ss = variableNames ss := by
  unfold newNames variableNames
  congr 2
  funext name
  have hlabel : (labelPosition? name ss).isNone = !(labelNames ss).contains name := by
    rw [Bool.eq_iff_iff, Option.isNone_iff_eq_none, ← Option.not_isSome_iff_eq_none,
      isSome_labelPosition?]
    simp
  rw [h, ← hlabel]
  cases predefinedSymbols.lookup name <;> cases labelPosition? name ss <;> rfl

/-- The first pass over a whole program: every label is new, and after it every
    name of the machine and every label is bound. -/
theorem labels_of_initial {ns : List NumberedStatement} {first : Labelling}
    (h : ns.foldlM Labelling.add .initial = .ok first) :
    codeCount (ns.map (·.statement)) ≤ 65535 ∧
    (labelNames (ns.map (·.statement))).Nodup ∧
    (∀ name ∈ labelNames (ns.map (·.statement)), predefinedSymbols.lookup name = none) ∧
    ∀ name, first.symbols.find? name = (predefinedSymbols.lookup name).or
      ((labelPosition? name (ns.map (·.statement))).map (BitVec.ofNat 16)) := by
  rcases labels_of_foldlM h with ⟨hcount, hnodup, hnew, hfind⟩
  have hzero : Labelling.initial.nextAddress.value = 0 := rfl
  have hpredefined : Labelling.initial.symbols = .predefined := rfl
  simp only [hpredefined, hzero, Nat.zero_add, SymbolTable.find?_predefined] at hcount hnew hfind
  have hle := first.nextAddress.value_le
  exact ⟨by omega, hnodup, hnew, hfind⟩

/-- An image that was assembled is what its text says. -/
theorem realizes_of_assemble {text : String} {image : Image} (h : assemble text = .ok image) :
    image.Realizes ((statements text).map (·.statement)) := by
  rcases bind_eq_ok_iff.mp h with ⟨symbols, hlabels, hresolve⟩
  rcases map_eq_ok_iff.mp hlabels with ⟨first, hfirst, rfl⟩
  rcases map_eq_ok_iff.mp hresolve with ⟨second, hsecond, rfl⟩
  rcases labels_of_initial hfirst with ⟨hcount, hnodup, hnew, hfind⟩
  rcases resolve_of_foldlM hsecond with ⟨hread, -, hfind', hcode, hsome⟩
  refine ⟨hnodup, hnew, hcount, hread, ?_, hcode, hsome⟩
  intro name
  show second.symbols.find? name = _
  rw [hfind']
  -- The second pass starts from the table of the first one, at the first cell.
  show ((first.symbols.find? name).or
    (((newNames first.symbols _).idxOf? name).map _)) = _
  rw [newNames_eq_variableNames hfind, hfind, symbolAddress?, Option.or_assoc]
  rfl

/-- Statements with new labels that can all be read are assembled, if the
    addresses and the cells suffice. -/
theorem assemble_succeeds {text : String} {ss : List Statement}
    (hss : (statements text).map (·.statement) = ss) (hnodup : (labelNames ss).Nodup)
    (hnew : ∀ name ∈ labelNames ss, predefinedSymbols.lookup name = none)
    (hcount : codeCount ss ≤ 65535) (hread : ∀ st ∈ ss, st.Readable)
    (hcells : (variableNames ss).length < 65520) : ∃ image, assemble text = .ok image := by
  subst hss
  have hlabels : ∃ first, (statements text).foldlM Labelling.add .initial = .ok first := by
    refine foldlM_labels_succeeds ?_ hnodup ?_
    · show 0 + codeCount _ ≤ 65535
      omega
    · intro name hname
      exact (SymbolTable.find?_predefined name).trans (hnew name hname)
  rcases hlabels with ⟨first, hfirst⟩
  rcases labels_of_initial hfirst with ⟨-, -, -, hfind⟩
  have hresolve : ∃ second,
      (statements text).foldlM Resolving.add (.initial first.symbols) = .ok second := by
    refine foldlM_resolve_succeeds hread ?_
    show 16 + (newNames first.symbols _).length ≤ 65535
    rw [newNames_eq_variableNames hfind]
    omega
  rcases hresolve with ⟨second, hsecond⟩
  refine ⟨{ code := second.code, symbols := second.symbols }, bind_eq_ok_iff.mpr ?_⟩
  exact ⟨first.symbols, map_eq_ok_iff.mpr ⟨first, hfirst, rfl⟩,
    map_eq_ok_iff.mpr ⟨second, hsecond, rfl⟩⟩

section Failure

/-- A run over a list that fails does so at one of its elements, and succeeds
    up to there. -/
theorem foldlM_eq_error {ε α β : Type} {f : β → α → Except ε β} {s : β} {xs : List α} {e : ε}
    (h : xs.foldlM f s = .error e) :
    ∃ before x after u, xs = before ++ x :: after ∧ before.foldlM f s = .ok u ∧
      f u x = .error e := by
  induction xs generalizing s with
  | nil => cases h
  | cons x xs ih =>
      rw [List.foldlM_cons] at h
      cases hstep : f s x with
      | error e' =>
          rw [hstep] at h
          cases h
          exact ⟨[], x, xs, s, rfl, rfl, hstep⟩
      | ok u =>
          rw [hstep] at h
          rcases ih h with ⟨before, y, after, v, rfl, hbefore, hfail⟩
          exact ⟨x :: before, y, after, v, rfl, foldlM_cons_eq_ok_iff.mpr ⟨u, hstep, hbefore⟩,
            hfail⟩

/-- A counter of addresses fails for one cause only. -/
theorem Counter.eq_overflow_of_following {c : AddressCounter} {e : AssemblyError}
    (h : c.following = .error e) : e = .overflow := by
  unfold Counter.following at h
  cases hnext : c.next with
  | ok following =>
      rw [hnext] at h
      cases h
  | error overflow =>
      rw [hnext] at h
      cases h
      rfl

variable {n : NumberedStatement} {e : AssemblyError} {text : String}

/-- The first pass fails on a label that its table knows, or runs out of
    addresses. -/
theorem Labelling.add_eq_error {s : Labelling} (h : s.add n = .error e) :
    e = .overflow ∨ ∃ label, n.statement = .label label ∧
      (s.symbols.find? label).isSome = true ∧ e = .duplicateLabel n.line label := by
  unfold Labelling.add at h
  cases hs : n.statement with
  | label label =>
      simp only [hs] at h
      cases hfind : s.symbols.find? label with
      | none =>
          rw [hfind] at h
          cases h
      | some address =>
          rw [hfind] at h
          cases h
          exact Or.inr ⟨label, rfl, by rw [hfind]; rfl, rfl⟩
  | load operand =>
      simp only [hs] at h
      exact Or.inl (Counter.eq_overflow_of_following (map_eq_error_iff.mp h))
  | compute code =>
      simp only [hs] at h
      exact Or.inl (Counter.eq_overflow_of_following (map_eq_error_iff.mp h))

/-- The second pass fails on a statement that cannot be read or a number that
    cannot be loaded, or runs out of cells. -/
theorem Resolving.add_eq_error {s : Resolving} (h : s.add n = .error e) :
    e = .overflow ∨ (∃ code, e = .unreadable n.line code) ∨
      ∃ operand, n.statement = .load operand ∧ Text.isNumeral operand = true ∧
        maxLoad < Text.numeralValue operand ∧
        e = .constantTooLarge n.line (String.ofList operand) := by
  unfold Resolving.add at h
  cases hs : n.statement with
  | label name =>
      simp only [hs] at h
      cases h
  | compute code =>
      simp only [hs] at h
      split at h
      · cases h
      · cases h
        exact Or.inr (Or.inl ⟨_, rfl⟩)
  | load operand =>
      simp only [hs, Resolving.load, Resolving.loadSymbol] at h
      split at h
      · cases h
        exact Or.inr (Or.inl ⟨_, rfl⟩)
      · split at h
        · next hnumeral =>
            split at h
            · cases h
            · next hread =>
                cases h
                simp only [Text.readNumeral?, hnumeral, Bool.true_and, decide_eq_true_eq,
                  reduceCtorEq, ite_eq_right_iff] at hread
                exact Or.inr (Or.inr ⟨operand, rfl, hnumeral, Nat.lt_of_not_le hread, rfl⟩)
        · split at h
          · cases h
          · exact Or.inl (Counter.eq_overflow_of_following (map_eq_error_iff.mp h))

/-- A text that has no image fails at one of its statements, in one of the two
    passes. -/
theorem assemble_eq_error (h : assemble text = .error e) :
    ∃ before n after, statements text = before ++ n :: after ∧
      ((∃ s, before.foldlM Labelling.add .initial = .ok s ∧ s.add n = .error e) ∨
        ∃ s : Resolving, s.add n = .error e) := by
  simp only [assemble] at h
  cases hlabels : labelStatements (statements text) with
  | error e' =>
      rw [hlabels] at h
      cases h
      rcases foldlM_eq_error (map_eq_error_iff.mp hlabels) with
        ⟨before, n, after, s, hsplit, hbefore, hfail⟩
      exact ⟨before, n, after, hsplit, Or.inl ⟨s, hbefore, hfail⟩⟩
  | ok symbols =>
      rw [hlabels] at h
      rcases foldlM_eq_error (map_eq_error_iff.mp h) with ⟨before, n, after, s, hsplit, -, hfail⟩
      exact ⟨before, n, after, hsplit, Or.inr ⟨s, hfail⟩⟩

end Failure

end HackVM
