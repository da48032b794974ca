import HackVM.Proofs.Alignment
import Mathlib.Data.List.Zip

/-!
# Labels Kept per Function

Keeping labels per function does not change the code.

If labels belong to functions, a label is written with the function in front of
it, and two functions may declare the same label. Otherwise all labels of a
program are shared. For a program that can be compiled both ways the choice does
not matter, provided that it stays within its functions: a jump goes to a label
of the same function and a call to a function that exists. Both compilations
declare equally many labels, so the labels of one can be matched with those of
the other by their places. Every symbol of the code is then matched with the
symbol that stands in its place. Static variables are not labels and have to
stay apart from them.

It is not enough that a jump goes to some label. From another function it reaches
a shared label, but under its own function's name it is only a variable.

## Main definitions

* `Line.label?`, `Line.jump?`, `Line.callee?`, `Entry.callee?`: Names as they are
  written.
* `Matched`: Symbols that correspond by their places.

## Theorems

* `labels_matched`: The labels of both compilations correspond by their places.
* `renaming_matched`: Symbols correspond one by one if no label is declared twice.
* `targets_correspond`: What entries go to corresponds if what they declare does.
* `code_eq_of_scopeLabels`: The code is the same both ways.
-/

namespace HackVM

namespace Line

/-- The label that a line declares, as it is written. -/
def label? (l : Line) : Option String :=
  match l.parsed.result with
  | .ok (.label name) => some name
  | _ => none

/-- The label that a line jumps to, as it is written. -/
def jump? (l : Line) : Option String :=
  match l.parsed.result with
  | .ok (.goto name) | .ok (.ifGoto name) => some name
  | _ => none

/-- The function that a line calls. -/
def callee? (l : Line) : Option String :=
  match l.parsed.result with
  | .ok (.call name _) => some name
  | _ => none

variable {l l' : Line} {name : String}

/-- A line goes to a label or to a function. -/
theorem target?_eq (options : Options) (l : Line) :
    l.target? options = (l.jump?.map (l.symbol options)).or l.callee? := by
  unfold target? jump? callee?
  cases l.parsed.result with
  | error cause => rfl
  | ok command => cases command <;> rfl

theorem declares?_of_label? (options : Options) (h : l.label? = some name) :
    l.declares? options = some (l.symbol options name) := by
  unfold label? at h
  split at h
  · next hresult =>
      cases h
      simp only [declares?, hresult]
  · cases h

theorem declares?_of_begins? (options : Options) (h : l.parsed.begins? = some name) :
    l.declares? options = some name := by
  unfold ParsedLine.begins? at h
  split at h
  · next command hresult =>
      cases command with
      | function name' locals =>
          cases h
          simp only [declares?, hresult]
      | _ => cases h
  · cases h

/-- Lines of the same function write a label in the same way. -/
theorem symbol_eq (options : Options) (h : l'.function? = l.function?) (name : String) :
    l'.symbol options name = l.symbol options name := by
  unfold symbol
  rw [h]

end Line

/-- The function that an entry calls. -/
def Entry.callee? : Entry → Option String
  | .start _ => some "Sys.init"
  | .line l => l.callee?

/-- Symbols that correspond: labels by their places, and all others to
    themselves. -/
def Matched (labels labels' : List String) (name name' : String) : Prop :=
  (name, name') ∈ labels.zip labels' ∨ name = name' ∧ name ∉ labels ∧ name ∉ labels'

section Matching

variable {labels labels' : List String}

/-- In a list without repetitions a label has one place only. -/
theorem eq_of_mem_zip {name name' name'' : String} (hlength : labels.length = labels'.length)
    (hnodup : labels.Nodup) (h : (name, name') ∈ labels.zip labels')
    (h' : (name, name'') ∈ labels.zip labels') : name' = name'' := by
  have hfst : ((labels.zip labels').map Prod.fst).Nodup := by
    rwa [List.map_fst_zip (Nat.le_of_eq hlength)]
  exact congrArg Prod.snd (List.inj_on_of_nodup_map hfst h h' rfl)

theorem Matched.symm {name name' : String} (h : Matched labels labels' name name') :
    Matched labels' labels name' name := by
  rcases h with hzip | ⟨rfl, hnot, hnot'⟩
  · left
    rw [← List.zip_swap]
    exact List.mem_map_of_mem hzip
  · exact Or.inr ⟨rfl, hnot', hnot⟩

/-- A symbol corresponds to one symbol only. -/
theorem Matched.unique {name name' name'' : String} (hlength : labels.length = labels'.length)
    (hnodup : labels.Nodup) (h : Matched labels labels' name name')
    (h' : Matched labels labels' name name'') : name' = name'' := by
  rcases h with hzip | ⟨rfl, hnot, -⟩
  · rcases h' with hzip' | ⟨-, hnot', -⟩
    · exact eq_of_mem_zip hlength hnodup hzip hzip'
    · exact absurd (List.of_mem_zip hzip).1 hnot'
  · rcases h' with hzip' | ⟨rfl, -, -⟩
    · exact absurd (List.of_mem_zip hzip').1 hnot
    · rfl

/-- Symbols correspond one by one if no label is declared twice, and no label is
    a name of the machine. -/
theorem renaming_matched (hlength : labels.length = labels'.length) (hnodup : labels.Nodup)
    (hnodup' : labels'.Nodup) (hnew : ∀ name ∈ labels, predefinedSymbols.lookup name = none)
    (hnew' : ∀ name ∈ labels', predefinedSymbols.lookup name = none) :
    Renaming (Matched labels labels') where
  unique := ⟨fun _ _ _ h h' => h.symm.unique hlength.symm hnodup' h'.symm,
    fun _ _ _ h h' => h.unique hlength hnodup h'⟩
  lookup := by
    rintro name name' (hzip | ⟨rfl, -, -⟩)
    · rw [hnew name (List.of_mem_zip hzip).1, hnew' name' (List.of_mem_zip hzip).2]
    · rfl

/-- The names of the machine are matched with themselves. -/
theorem matched_machine (hnew : ∀ name ∈ labels, predefinedSymbols.lookup name = none)
    (hnew' : ∀ name ∈ labels', predefinedSymbols.lookup name = none) :
    ∀ name ∈ machineNames, Matched labels labels' name name := by
  have hbound : ∀ name ∈ machineNames, predefinedSymbols.lookup name ≠ none := by decide
  intro name hname
  exact Or.inr ⟨rfl, fun hmem => hbound name hname (hnew name hmem),
    fun hmem => hbound name hname (hnew' name hmem)⟩

/-- Blocks that declare equally many labels have labels that correspond by their
    places among all labels. -/
theorem labels_matched {blocks blocks' : List Block}
    (h : List.Forall₂ (fun block block' => (declaredLabels block.instructions).length =
      (declaredLabels block'.instructions).length) blocks blocks') :
    (declaredLabels (blockCode blocks)).length = (declaredLabels (blockCode blocks')).length ∧
      LabelsCorrespond (fun name name' => (name, name') ∈
        (declaredLabels (blockCode blocks)).zip (declaredLabels (blockCode blocks')))
        blocks blocks' := by
  induction h with
  | nil => exact ⟨rfl, .nil⟩
  | cons hlength _ ih =>
      rename_i block block' blocks blocks'
      have hcode : ∀ (block : Block) blocks, declaredLabels (blockCode (block :: blocks)) =
          declaredLabels block.instructions ++ declaredLabels (blockCode blocks) := by
        intro block blocks
        rw [blockCode, List.flatMap_cons, declaredLabels_append]
        rfl
      rw [hcode, hcode, List.length_append, List.length_append, hlength, ih.1,
        List.zip_append hlength]
      -- The labels of the first blocks are matched in front of all others.
      refine ⟨rfl, .cons ?_ (ih.2.imp fun block block' hblock => hblock.imp ?_)⟩
      · exact List.forall₂_iff_zip.mpr ⟨hlength, fun hmem => List.mem_append_left _ hmem⟩
      · exact fun name name' hmem => List.mem_append_right _ hmem

end Matching

/-- Any two label supplies give out equally many labels. -/
theorem LabelSupply.paired_true : Paired (fun _ _ => True) (fun _ _ => True) :=
  ⟨fun _ _ _ _ => ⟨⟨trivial, trivial⟩, trivial⟩, fun _ _ _ _ => ⟨trivial, trivial⟩⟩

/-- In a program that stays within its functions, what entries go to corresponds
    if what they declare does. -/
theorem targets_correspond {R : String → String → Prop} {start options options' : Options}
    {units : List (String × String)}
    (hjumps : ∀ l ∈ programLines units, ∀ name ∈ l.jump?,
      ∃ l' ∈ programLines units, l'.label? = some name ∧ l'.function? = l.function?)
    (hcalls : ∀ entry ∈ programEntries start units, ∀ name ∈ entry.callee?,
      ∃ l ∈ programLines units, l.parsed.begins? = some name)
    (hdeclares : ∀ entry ∈ programEntries start units, ∀ name ∈ entry.declares? options,
      ∀ name' ∈ entry.declares? options', R name name') :
    ∀ entry ∈ programEntries start units, ∀ name ∈ entry.target? options,
      ∀ name' ∈ entry.target? options', R name name' := by
  have hcallee : ∀ entry ∈ programEntries start units, ∀ name ∈ entry.callee?, R name name := by
    intro entry hentry name hname
    rcases hcalls entry hentry name hname with ⟨l, hl, hbegins⟩
    exact hdeclares (.line l) (mem_programEntries_of_line hl) name
      (Line.declares?_of_begins? options hbegins) name (Line.declares?_of_begins? options' hbegins)
  intro entry hentry name hname name' hname'
  cases entry with
  | start unit =>
      cases hname
      cases hname'
      exact hcallee _ hentry _ rfl
  | line l =>
      have hname : l.target? options = some name := hname
      have hname' : l.target? options' = some name' := hname'
      rw [Line.target?_eq] at hname hname'
      cases hjump : l.jump? with
      | none =>
          rw [hjump] at hname hname'
          rw [← Option.mem_unique hname hname']
          exact hcallee _ hentry _ hname
      | some label =>
          rw [hjump] at hname hname'
          cases hname
          cases hname'
          -- The label is declared on a line of the same function.
          rcases hjumps l (line_mem_programEntries hentry) label hjump with
            ⟨l', hl', hlabel, hfunction⟩
          rw [← Line.symbol_eq options hfunction, ← Line.symbol_eq options' hfunction]
          exact hdeclares (.line l') (mem_programEntries_of_line hl') _
            (Line.declares?_of_label? options hlabel) _ (Line.declares?_of_label? options' hlabel)

/-- Keeping labels per function does not change the code of a program in which
    every jump goes to a label of the same function, every call to a function, and
    no static variable has the name of a label. -/
theorem code_eq_of_scopeLabels {options : Options} {units : List (String × String)}
    {compilation compilation' : Compilation} {image image' : Image}
    (hunits : ∀ unit ∈ units, isName unit.1 = true)
    (hjumps : ∀ l ∈ programLines units, ∀ name ∈ l.jump?,
      ∃ l' ∈ programLines units, l'.label? = some name ∧ l'.function? = l.function?)
    (hcalls : ∀ entry ∈ programEntries options units, ∀ name ∈ entry.callee?,
      ∃ l ∈ programLines units, l.parsed.begins? = some name)
    (hstatic : ∀ l ∈ programLines units, ∀ name ∈ l.static?,
      name ∉ declaredLabels compilation.instructions ∧
        name ∉ declaredLabels compilation'.instructions)
    (hcompile : compileProgram { options with scopeLabels := false } units = .ok compilation)
    (hcompile' : compileProgram { options with scopeLabels := true } units = .ok compilation')
    (himage : assemble compilation.text = .ok image)
    (himage' : assemble compilation'.text = .ok image') : image.code = image'.code := by
  rcases (trace_of_compileProgram hcompile).1 with ⟨names, htrace⟩
  rcases (trace_of_compileProgram hcompile').1 with ⟨names', htrace'⟩
  have hrealizes := realizes_of_assemble himage
  have hrealizes' := realizes_of_assemble himage'
  rw [statements_text hunits hcompile] at hrealizes
  rw [statements_text hunits hcompile'] at hrealizes'
  have hnodup := hrealizes.nodup
  have hnodup' := hrealizes'.nodup
  have hnew := hrealizes.new
  have hnew' := hrealizes'.new
  rw [labelNames_statements] at hnodup hnodup' hnew hnew'
  -- Both compilations have the same entries, so their labels can be matched.
  have hequal := htrace.labels_paired LabelSupply.paired_true htrace' trivial
    fun _ _ _ _ _ _ => trivial
  rcases labels_matched (hequal.imp fun _ _ hblock => hblock.length_eq) with ⟨hlength, hzip⟩
  have hlabels := hzip.imp fun _ _ hblock => hblock.imp fun _ _ hmem =>
    (Or.inl hmem : Matched _ _ _ _)
  -- Whatever is not a label is matched with itself.
  have hother : ∀ entry ∈ programEntries options units, ∀ name ∈ entry.static?,
      Matched (declaredLabels compilation.instructions) (declaredLabels compilation'.instructions)
        name name := by
    intro entry hentry name hname
    cases entry with
    | start unit => cases hname
    | line l => exact Or.inr ⟨rfl, hstatic l (line_mem_programEntries hentry) name hname⟩
  have hrenamed := htrace.renamed (matched_machine hnew hnew') htrace' hother
    (targets_correspond hjumps hcalls (htrace.declares_paired htrace' hlabels)) hlabels
  exact code_eq_of_realizes (renaming_matched hlength hnodup hnodup' hnew hnew')
    (statements_renamed hrenamed
      (legible_blockCode (printable_of_compileProgram hunits hcompile))
      (legible_blockCode (printable_of_compileProgram hunits hcompile')))
    hrealizes hrealizes'

/-- Two units that jump inside and outside of functions and call across units. -/
def scopedUnits : List (String × String) :=
  [("Sys", "label TOP\nif-goto TOP\nfunction Sys.init 0\ngoto LOOP\nlabel LOOP\ncall Main.f 0"),
   ("Main", "function Main.f 1\nlabel BACK\neq\npop static 1\nif-goto BACK")]

/-- The program is given a start. -/
def scopedOptions : Options :=
  { echoSource := true, scopeLabels := false, bootstrap := true }

theorem code_eq_of_scopeLabels_scopedUnits :
    (∀ unit ∈ scopedUnits, isName unit.1 = true) ∧
    (∀ l ∈ programLines scopedUnits, ∀ name ∈ l.jump?,
      ∃ l' ∈ programLines scopedUnits, l'.label? = some name ∧ l'.function? = l.function?) ∧
    (∀ entry ∈ programEntries scopedOptions scopedUnits, ∀ name ∈ entry.callee?,
      ∃ l ∈ programLines scopedUnits, l.parsed.begins? = some name) ∧
    ∃ compilation compilation' image image',
      compileProgram { scopedOptions with scopeLabels := false } scopedUnits = .ok compilation ∧
      compileProgram { scopedOptions with scopeLabels := true } scopedUnits = .ok compilation' ∧
      declaredLabels compilation.instructions ≠ declaredLabels compilation'.instructions ∧
      (∀ l ∈ programLines scopedUnits, ∀ name ∈ l.static?,
        name ∉ declaredLabels compilation.instructions ∧
          name ∉ declaredLabels compilation'.instructions) ∧
      assemble compilation.text = .ok image ∧ assemble compilation'.text = .ok image' ∧
      image.code = image'.code := by
  have hunits : ∀ unit ∈ scopedUnits, isName unit.1 = true := by decide
  have hjumps : ∀ l ∈ programLines scopedUnits, ∀ name ∈ l.jump?,
      ∃ l' ∈ programLines scopedUnits, l'.label? = some name ∧ l'.function? = l.function? := by
    decide +kernel
  have hcalls : ∀ entry ∈ programEntries scopedOptions scopedUnits, ∀ name ∈ entry.callee?,
      ∃ l ∈ programLines scopedUnits, l.parsed.begins? = some name := by
    decide +kernel
  have hfacts : (compileProgram { scopedOptions with scopeLabels := false }
      scopedUnits).toOption.any (fun compilation =>
        (compileProgram { scopedOptions with scopeLabels := true }
          scopedUnits).toOption.any (fun compilation' =>
            declaredLabels compilation.instructions ≠ declaredLabels compilation'.instructions ∧
            (∀ l ∈ programLines scopedUnits, ∀ name ∈ l.static?,
              name ∉ declaredLabels compilation.instructions ∧
                name ∉ declaredLabels compilation'.instructions) ∧
            canAssemble compilation.instructions = true ∧
            canAssemble compilation'.instructions = true)) = true := by
    decide +kernel
  refine ⟨hunits, hjumps, hcalls, ?_⟩
  rcases exists_ok_of_any hfacts with ⟨compilation, hcompile, hscoped⟩
  rcases exists_ok_of_any hscoped with ⟨compilation', hcompile', hpassed⟩
  rcases of_decide_eq_true hpassed with ⟨hlabels, hstatic, hcan, hcan'⟩
  rcases exists_assemble_of_canAssemble compilation.echoSource
    (printable_of_compileProgram hunits hcompile) hcan with ⟨image, himage⟩
  rcases exists_assemble_of_canAssemble compilation'.echoSource
    (printable_of_compileProgram hunits hcompile') hcan' with ⟨image', himage'⟩
  have hcode := code_eq_of_scopeLabels hunits hjumps hcalls hstatic hcompile hcompile' himage
    himage'
  exact ⟨compilation, compilation', image, image', hcompile, hcompile', hlabels, hstatic, himage,
    himage', hcode⟩

end HackVM
