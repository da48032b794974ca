import HackVM.Machine.Basic
import HackVM.Proofs.Listing
import HackVM.Proofs.Passes

/-!
# Code in an Image

Where a list of instructions lies in an image.

A fragment of code is relocatable until it is assembled: it names its targets
by labels and says nothing of addresses. `Image.Holds` is the relation between
such a fragment and the image that contains it from some address on. Each of
its instructions is the word at the next address, with the symbols of the image
put in, and each of its labels is bound to the address where it stands. The
relation splits along `++`, which is what lets the parts of a program be
treated one by one.

An image that was assembled from a listing holds all the instructions of the
listing from address zero on. This is where the text ends: nothing beyond this
module looks at characters again.

## Main definitions

* `codeSize`: The number of words that instructions become.
* `declaredLabels`: The labels that instructions declare.
* `Instruction.word?`: The word of an instruction, its symbol looked up.
* `Image.Holds`: The image contains a fragment from an address on.
* `Image.KnowsMachine`: The names of the machine have their fixed addresses.

## Theorems

* `Image.holds_append`: A fragment is held when its parts are.
* `Statement.word?_statement?`: An instruction and its text have the same word.
* `labelPosition?_statements`: A label stands behind the words before it.
* `Image.code_of_realizes`: An image has the words of its instructions.
* `Image.holds_of_realizes`: An image holds the instructions it was made from.
* `Image.knowsMachine_of_realizes`: The names of the machine keep their meaning.
-/

namespace HackVM

namespace Instruction

/-- The label that an instruction declares. -/
def label? : Instruction → Option String
  | .label name => some name
  | _ => none

/-- The word of an instruction whose symbol is looked up. -/
def word? (lookup : String → Option Word) : Instruction → Option CodeWord
  | .load (.constant value) => some (.load value)
  | .load (.symbol name) => (lookup name).map .load
  | .compute c => some (.compute c)
  | .label _ | .comment _ => none

end Instruction

/-- The number of words that instructions become. -/
def codeSize (code : List Instruction) : Nat :=
  code.countP Instruction.isExecutable

/-- The labels that instructions declare, in order. -/
def declaredLabels (code : List Instruction) : List String :=
  code.filterMap Instruction.label?

@[simp]
theorem codeSize_nil : codeSize [] = 0 := rfl

theorem codeSize_cons (i : Instruction) (code : List Instruction) :
    codeSize (i :: code) = codeSize code + if i.isExecutable then 1 else 0 :=
  List.countP_cons

theorem codeSize_append (code rest : List Instruction) :
    codeSize (code ++ rest) = codeSize code + codeSize rest :=
  List.countP_append

theorem declaredLabels_append (code rest : List Instruction) :
    declaredLabels (code ++ rest) = declaredLabels code ++ declaredLabels rest :=
  List.filterMap_append

theorem mem_declaredLabels_iff {name : String} {code : List Instruction} :
    name ∈ declaredLabels code ↔ Instruction.label name ∈ code := by
  unfold declaredLabels
  rw [List.mem_filterMap]
  constructor
  · rintro ⟨i, hi, hlabel⟩
    cases i with
    | label other =>
        cases hlabel
        exact hi
    | _ => cases hlabel
  · intro h
    exact ⟨_, h, rfl⟩

/-- The image contains the fragment from the address on: every word is in its
    place, and every label is bound to the address it stands at. -/
def Image.Holds (image : Image) : Nat → List Instruction → Prop
  | _, [] => True
  | base, .label name :: code =>
      (image.symbols.find? name).map BitVec.toNat = some base ∧ image.Holds base code
  | base, .comment _ :: code => image.Holds base code
  | base, i :: code =>
      (∃ w, i.word? image.symbols.find? = some w ∧ image.code[base]? = some w) ∧
        image.Holds (base + 1) code

namespace Image

/-- Whether a word is in its place can be looked up. -/
instance decidableHolds (image : Image) :
    (base : Nat) → (code : List Instruction) → Decidable (image.Holds base code)
  | _, [] => .isTrue trivial
  | base, .label name :: code =>
      have := decidableHolds image base code
      inferInstanceAs (Decidable ((image.symbols.find? name).map BitVec.toNat = some base ∧
        image.Holds base code))
  | base, .comment _ :: code => decidableHolds image base code
  | base, .load address :: code =>
      have := decidableHolds image (base + 1) code
      inferInstanceAs (Decidable ((∃ w ∈ (Instruction.load address).word? image.symbols.find?,
        image.code[base]? = some w) ∧ image.Holds (base + 1) code))
  | base, .compute c :: code =>
      have := decidableHolds image (base + 1) code
      inferInstanceAs (Decidable ((∃ w ∈ (Instruction.compute c).word? image.symbols.find?,
        image.code[base]? = some w) ∧ image.Holds (base + 1) code))

variable {image : Image} {base : Nat} {code rest : List Instruction}

theorem holds_cons_of_isExecutable {i : Instruction} (h : i.isExecutable = true) :
    image.Holds base (i :: code) ↔
      (∃ w, i.word? image.symbols.find? = some w ∧ image.code[base]? = some w) ∧
        image.Holds (base + 1) code := by
  cases i with
  | load address => rfl
  | compute c => rfl
  | label name => cases h
  | comment text => cases h

/-- A fragment is held when its parts are, the second where the first ends. -/
theorem holds_append :
    image.Holds base (code ++ rest) ↔
      image.Holds base code ∧ image.Holds (base + codeSize code) rest := by
  induction code generalizing base with
  | nil => simp [Holds]
  | cons i code ih =>
      rw [List.cons_append, codeSize_cons]
      by_cases hi : i.isExecutable = true
      · rw [holds_cons_of_isExecutable hi, holds_cons_of_isExecutable hi, ih, if_pos hi, and_assoc]
        have : base + 1 + codeSize code = base + (codeSize code + 1) := by omega
        rw [this]
      · cases i with
        | load address => exact absurd rfl hi
        | compute c => exact absurd rfl hi
        | label name => rw [Holds, Holds, ih, if_neg hi, and_assoc, Nat.add_zero]
        | comment text => rw [Holds, Holds, ih, if_neg hi, Nat.add_zero]

end Image

/-- A name is no numeral. -/
theorem not_isNumeral_of_isName {name : String} (h : isName name = true) :
    Text.isNumeral name.toList = false := by
  unfold isName at h
  split at h
  · cases h
  · next first rest hname =>
      simp only [Bool.and_eq_true, Bool.not_eq_true'] at h
      rw [hname, Text.isNumeral, List.all_cons, h.1.1]
      rfl

theorem ne_nil_of_isName {name : String} (h : isName name = true) : name.toList ≠ [] := by
  intro hnil
  unfold isName at h
  rw [hnil] at h
  cases h

/-- An instruction and the statement it makes have the same word. -/
theorem Statement.word?_statement? {i : Instruction} {st : Statement} (symbols : SymbolTable)
    (hlegible : i.Legible) (h : i.statement? = some st) :
    st.word? symbols = i.word? symbols.find? := by
  cases i with
  | load address =>
      cases h
      cases address with
      | constant value =>
          show (if Text.isNumeral value.toNat.repr.toList = true then
            some (CodeWord.load (BitVec.ofNat 16 (Text.numeralValue value.toNat.repr.toList)))
            else _) = some (CodeWord.load value)
          rw [if_pos (Text.isNumeral_repr _), Text.numeralValue_repr, BitVec.ofNat_toNat,
            BitVec.setWidth_eq]
      | symbol name =>
          show (if Text.isNumeral name.toList = true then _ else
            (symbols.find? (String.ofList name.toList)).map CodeWord.load) = _
          rw [not_isNumeral_of_isName hlegible, String.ofList_toList]
          rfl
  | compute c =>
      cases h
      rw [Statement.word?, Computation.parse?_render]
      rfl
  | label name =>
      cases h
      rfl
  | comment text => cases h

theorem isCode_statement? {i : Instruction} {st : Statement} (h : i.statement? = some st) :
    st.isCode = i.isExecutable := by
  cases i with
  | comment text => cases h
  | load address => cases h; rfl
  | compute c => cases h; rfl
  | label name => cases h; rfl

/-- The statements of instructions have the words of the instructions. -/
theorem filterMap_word?_statements (symbols : SymbolTable) {code : List Instruction}
    (h : ∀ i ∈ code, i.Legible) :
    (code.filterMap Instruction.statement?).filterMap (Statement.word? symbols) =
      code.filterMap (Instruction.word? symbols.find?) := by
  rw [List.filterMap_filterMap]
  refine List.filterMap_congr fun i hi => ?_
  cases hst : i.statement? with
  | none =>
      rcases Instruction.eq_comment_of_statement? hst with ⟨text, rfl⟩
      rfl
  | some st => exact Statement.word?_statement? symbols (h i hi) hst

theorem codeCount_statements (code : List Instruction) :
    codeCount (code.filterMap Instruction.statement?) = codeSize code := by
  induction code with
  | nil => rfl
  | cons i code ih =>
      rw [codeSize_cons, List.filterMap_cons]
      cases hst : i.statement? with
      | none =>
          rcases Instruction.eq_comment_of_statement? hst with ⟨text, rfl⟩
          exact ih
      | some st =>
          show codeCount (st :: _) = _
          rw [codeCount_cons, ih, isCode_statement? hst]

theorem labelNames_statements (code : List Instruction) :
    labelNames (code.filterMap Instruction.statement?) = declaredLabels code := by
  rw [labelNames, declaredLabels, List.filterMap_filterMap]
  refine List.filterMap_congr fun i _ => ?_
  cases i <;> rfl

/-- A label stands behind the words before it. -/
theorem labelPosition?_statements {name : String} {before after : List Instruction}
    (h : name ∉ declaredLabels before) :
    labelPosition? name ((before ++ .label name :: after).filterMap Instruction.statement?) =
      some (codeSize before) := by
  rw [← labelNames_statements] at h
  rw [List.filterMap_append, ← codeCount_statements]
  exact labelPosition?_append h

/-- Fragments become as many words as they have executable instructions. -/
theorem length_filterMap_word? {lookup : String → Option Word} {code : List Instruction}
    (h : ∀ i ∈ code, (i.word? lookup).isSome = i.isExecutable) :
    (code.filterMap (Instruction.word? lookup)).length = codeSize code := by
  induction code with
  | nil => rfl
  | cons i code ih =>
      have hi := h i List.mem_cons_self
      have hrest := ih fun j hj => h j (List.mem_cons_of_mem i hj)
      rw [List.filterMap_cons, codeSize_cons, ← hi]
      cases i.word? lookup with
      | none => exact hrest
      | some w =>
          rw [List.length_cons, hrest]
          rfl

namespace Image

variable {image : Image} {code : List Instruction}

/-- The words of an image are those of the instructions it was made from. -/
theorem code_of_realizes (h : image.Realizes (code.filterMap Instruction.statement?))
    (hlegible : ∀ i ∈ code, i.Legible) :
    image.code.toList = code.filterMap (Instruction.word? image.symbols.find?) ∧
      ∀ i ∈ code, (i.word? image.symbols.find?).isSome = i.isExecutable := by
  refine ⟨h.code.trans (filterMap_word?_statements image.symbols hlegible), ?_⟩
  intro i hi
  cases hst : i.statement? with
  | none =>
      rcases Instruction.eq_comment_of_statement? hst with ⟨text, rfl⟩
      rfl
  | some st =>
      rw [← Statement.word?_statement? image.symbols (hlegible i hi) hst,
        h.isSome_word? st (List.mem_filterMap.mpr ⟨i, hi, hst⟩), isCode_statement? hst]

/-- A label of the instructions is bound to the number of words before it. -/
theorem find?_label_of_realizes {name : String} {before after : List Instruction}
    (h : image.Realizes ((before ++ .label name :: after).filterMap Instruction.statement?)) :
    (image.symbols.find? name).map BitVec.toNat = some (codeSize before) := by
  rw [List.filterMap_append] at h
  rw [← codeCount_statements]
  exact (Realizes.find?_label h).1

/-- An image holds the instructions it was made from. -/
theorem holds_of_realizes (h : image.Realizes (code.filterMap Instruction.statement?))
    (hlegible : ∀ i ∈ code, i.Legible) : image.Holds 0 code := by
  rcases code_of_realizes h hlegible with ⟨hcode, hsome⟩
  -- Induction on what is still ahead, for every way to split off what is behind.
  suffices ∀ before rest, before ++ rest = code → image.Holds (codeSize before) rest from
    this [] code rfl
  intro before rest
  induction rest generalizing before with
  | nil => exact fun _ => trivial
  | cons i rest ih =>
      intro hsplit
      have hnext := ih (before ++ [i]) (by rw [List.append_assoc]; exact hsplit)
      rw [codeSize_append, codeSize_cons, codeSize_nil, Nat.zero_add] at hnext
      by_cases hi : i.isExecutable = true
      · rw [if_pos hi] at hnext
        refine (holds_cons_of_isExecutable hi).mpr ⟨?_, hnext⟩
        have hmem : i ∈ code := by
          rw [← hsplit]
          exact List.mem_append_right _ List.mem_cons_self
        rcases Option.isSome_iff_exists.mp ((hsome i hmem).trans hi) with ⟨w, hw⟩
        -- As many words lie before it as the address says.
        have hlength : (before.filterMap (Instruction.word? image.symbols.find?)).length =
            codeSize before :=
          length_filterMap_word? fun j hj =>
            hsome j (by rw [← hsplit]; exact List.mem_append_left _ hj)
        refine ⟨w, hw, ?_⟩
        rw [← Array.getElem?_toList, hcode, ← hsplit, List.filterMap_append, List.filterMap_cons,
          hw, List.getElem?_append_right (by omega), hlength, Nat.sub_self]
        rfl
      · rw [if_neg hi, Nat.add_zero] at hnext
        cases i with
        | load address => exact absurd rfl hi
        | compute c => exact absurd rfl hi
        | comment text => exact hnext
        | label name => exact ⟨find?_label_of_realizes (hsplit ▸ h), hnext⟩

/-- The image knows the names of the machine. -/
def KnowsMachine (image : Image) : Prop :=
  ∀ entry ∈ predefinedSymbols, image.symbols.find? entry.1 = some entry.2

/-- The names of the machine keep their meaning. -/
theorem knowsMachine_of_realizes {ss : List Statement} (h : image.Realizes ss) :
    image.KnowsMachine := by
  intro entry hentry
  have hlookup : predefinedSymbols.lookup entry.1 = some entry.2 := by
    revert entry
    decide
  rw [h.find?, symbolAddress?, hlookup]
  rfl

end Image

end HackVM
