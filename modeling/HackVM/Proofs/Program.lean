import HackVM.Compilation

/-!
# Lines of a Program

A program as one sequence of lines, each in its place.

Compiling carries a context from line to line. What a line means, however,
depends on very little of what came before: the unit it belongs to, and the
function that encloses it, which is the one begun last in the same unit. A
`Line` holds both beside what was written, so that it can be looked at by
itself. Nothing here mentions contexts, counters or generated labels.

The code of a program comes in blocks, one for each line and one more in front
if the program is given a start. An `Entry` is what one block is made from.

## Main definitions

* `Line`: A line with its unit and the function that encloses it.
* `programLines`: All lines of a program, in order.
* `Line.symbol`: A label name as it stands in the code.
* `Entry`, `programEntries`: What the blocks of a program are made from.
* `unitEntries`: The same for a unit by itself.
* `Entry.declares?`: The label that a user declares in an entry.
* `Entry.target?`: The name that an entry may go to.
* `Closed`: No entry goes to a name that is not declared.

## Theorems

* `start_mem_programEntries`, `line_mem_programEntries`, `mem_unitEntries`: Where
  entries come from.
* `function?_eq_none_iff`: A line is outside of any function if none begins
  before it.
-/

namespace HackVM

/-- The function that a command begins. -/
def Command.begins? : Command → Option String
  | .function name _ => some name
  | _ => none

/-- The function that begins on a line. -/
def ParsedLine.begins? (parsed : ParsedLine) : Option String :=
  match parsed.result with
  | .ok command => command.begins?
  | .error _ => none

/-- A line in its place. -/
structure Line where
  unit : String
  /-- The function that was begun last before the line, in the same unit. -/
  function? : Option String
  parsed : ParsedLine

/-- Lines of one unit, the first of them inside the given function. -/
def placeLines (unit : String) : Option String → List ParsedLine → List Line
  | _, [] => []
  | function?, parsed :: rest =>
      { unit := unit, function? := function?, parsed := parsed } ::
        placeLines unit (parsed.begins?.or function?) rest

/-- The lines of a unit. A unit starts outside of any function. -/
def unitLines (unit : String × String) : List Line :=
  placeLines unit.1 none (parseLines unit.2)

/-- The lines of a program. -/
def programLines (units : List (String × String)) : List Line :=
  units.flatMap unitLines

namespace Line

/-- Where the line was written. -/
def location (l : Line) : Location :=
  { unit := l.unit, line := l.parsed.line }

/-- A label name as it stands in the code: qualified by the enclosing function,
    if labels are kept per function. -/
def symbol (options : Options) (l : Line) (name : String) : String :=
  if options.scopeLabels then
    match l.function? with
    | some function => function ++ "$" ++ name
    | none => name
  else name

/-- The symbol of a static variable. -/
def staticSymbol (l : Line) (index : Word) : String :=
  l.unit ++ "." ++ Word.numeral index

/-- The label that a line declares in the code. -/
def declares? (options : Options) (l : Line) : Option String :=
  match l.parsed.result with
  | .ok (.label name) => some (l.symbol options name)
  | .ok (.function name _) => some name
  | _ => none

/-- The name that a line may go to. -/
def target? (options : Options) (l : Line) : Option String :=
  match l.parsed.result with
  | .ok (.goto name) | .ok (.ifGoto name) => some (l.symbol options name)
  | .ok (.call name _) => some name
  | _ => none

end Line

/-- What one block of code is made from. -/
inductive Entry where
  /-- The start of the program, which belongs to its first unit. -/
  | start (unit : String)
  /-- A line. -/
  | line (l : Line)

/-- Where an entry stands; the start is in front of the first line. -/
def Entry.location : Entry → Location
  | .start unit => { unit := unit, line := 0 }
  | .line l => l.location

/-- The label that a user declares in an entry. -/
def Entry.declares? (options : Options) : Entry → Option String
  | .start _ => none
  | .line l => l.declares? options

/-- The name that an entry may go to. -/
def Entry.target? (options : Options) : Entry → Option String
  | .start _ => some "Sys.init"
  | .line l => l.target? options

/-- Every name that an entry may go to is declared by an entry. -/
def Closed (options : Options) (entries : List Entry) : Prop :=
  ∀ entry ∈ entries, ∀ name ∈ entry.target? options,
    ∃ other ∈ entries, other.declares? options = some name

instance (options : Options) (entries : List Entry) : Decidable (Closed options entries) :=
  inferInstanceAs (Decidable (∀ entry ∈ entries, ∀ name ∈ entry.target? options,
    ∃ other ∈ entries, other.declares? options = some name))

/-- The entry in front of all lines, if the program is given a start. -/
def startEntries (options : Options) (units : List (String × String)) : List Entry :=
  if options.bootstrap then units.head?.toList.map fun unit => .start unit.1 else []

/-- What the blocks of a program are made from, in order. -/
def programEntries (options : Options) (units : List (String × String)) : List Entry :=
  startEntries options units ++ (programLines units).map .line

/-- What the blocks of a unit by itself are made from, the first line inside the
    given function. -/
def unitEntries (options : Options) (unit : String) (function? : Option String) (text : String) :
    List Entry :=
  startEntries options [(unit, text)] ++ (placeLines unit function? (parseLines text)).map .line

section Entries

variable {options : Options} {units : List (String × String)}

theorem programEntries_cons (unit text : String) :
    programEntries options ((unit, text) :: units) =
      unitEntries options unit none text ++ (programLines units).map .line := by
  rw [unitEntries, List.append_assoc, ← List.map_append]
  rfl

theorem start_mem_programEntries {unit : String}
    (h : Entry.start unit ∈ programEntries options units) : ∃ u ∈ units, u.1 = unit := by
  rcases List.mem_append.mp h with hstart | hline
  · unfold startEntries at hstart
    split at hstart
    · rcases List.mem_map.mp hstart with ⟨u, hu, heq⟩
      cases heq
      exact ⟨u, List.mem_of_mem_head? (Option.mem_toList.mp hu), rfl⟩
    · cases hstart
  · rcases List.mem_map.mp hline with ⟨l, -, heq⟩
    cases heq

theorem line_mem_programEntries {l : Line} (h : Entry.line l ∈ programEntries options units) :
    l ∈ programLines units := by
  rcases List.mem_append.mp h with hstart | hline
  · unfold startEntries at hstart
    split at hstart
    · rcases List.mem_map.mp hstart with ⟨u, -, heq⟩
      cases heq
    · cases hstart
  · rcases List.mem_map.mp hline with ⟨l', hl, heq⟩
    cases heq
    exact hl

theorem mem_programEntries_of_line {l : Line} (h : l ∈ programLines units) :
    Entry.line l ∈ programEntries options units :=
  List.mem_append_right _ (List.mem_map_of_mem h)

theorem mem_unitEntries {unit text : String} {function? : Option String} {entry : Entry}
    (h : entry ∈ unitEntries options unit function? text) :
    entry = .start unit ∨
      ∃ l ∈ placeLines unit function? (parseLines text), entry = .line l := by
  rcases List.mem_append.mp h with hstart | hline
  · unfold startEntries at hstart
    split at hstart
    · exact Or.inl (List.mem_singleton.mp hstart)
    · cases hstart
  · rcases List.mem_map.mp hline with ⟨l, hl, rfl⟩
    exact Or.inr ⟨l, hl, rfl⟩

end Entries

/-- A line is outside of any function if the first line is and no line before it
    begins one. -/
theorem function?_eq_none_iff {unit : String} {function? : Option String}
    {lines : List ParsedLine} {j : Nat} {l : Line}
    (h : (placeLines unit function? lines)[j]? = some l) :
    l.function? = none ↔
      function? = none ∧ ∀ parsed ∈ lines.take j, parsed.begins? = none := by
  induction lines generalizing function? j with
  | nil => cases h
  | cons parsed lines ih =>
      cases j with
      | zero =>
          cases h
          simp
      | succ j =>
          rw [placeLines, List.getElem?_cons_succ] at h
          rw [ih h, List.take_succ_cons, List.forall_mem_cons, Option.or_eq_none_iff]
          exact ⟨fun ⟨⟨h₁, h₂⟩, h₃⟩ => ⟨h₂, h₁, h₃⟩, fun ⟨h₂, h₁, h₃⟩ => ⟨⟨h₁, h₂⟩, h₃⟩⟩

end HackVM
