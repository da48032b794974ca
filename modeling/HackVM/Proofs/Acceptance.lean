import HackVM.Proofs.Assignment
import HackVM.Proofs.FreeLayout
import HackVM.Proofs.Labels

/-!
# Accepted Commands

Reading and lowering accept the same commands.

A command is checked when it is read, and once more when it is lowered, because it
need not have been read: a command that was put together by other means may have an
index that no segment has, or store into a constant. Both checks come to the same
result. A written command is read back exactly if it can be lowered, as long as its
names are names, which is a matter of reading alone.

Nothing is done for a command that is refused. The context takes note of a command
only when it has code, and then of three things: the number of a comparison, the
number of a call, and the function that begins. The labels that are made from the
numbers are recorded as they are given out.

Below the last number no counter overflows, and the two sums that lowering forms are
those of a temporary and its base and of the arguments of a call and its frame. Both
are small once the bounds have been checked.

## Main definitions

* `Command.comparisons`, `Command.calls`: The numbers that a command uses up.
* `Command.minted`: The labels that are made for it.
* `Context.Advances`: The context after a command that has code.

## Theorems

* `Command.minted_of_jump?`: The labels of a comparison.
* `lower_of_outOfBounds`, `lower_popConstant`: A command is refused before anything
  is done for it.
* `exists_lower`: Any other command has code.
* `Lowers.advances`: What the context takes note of.
* `Command.parse_render_iff`: A written command is read back if it can be lowered.
* `lower_accepts_readable`: Lowering accepts what reading does, and refuses the rest
  without a trace.
-/

namespace HackVM

namespace Command

/-- The number of comparisons in a command. -/
def comparisons : Command → Nat
  | .arithmetic .eq | .arithmetic .gt | .arithmetic .lt => 1
  | _ => 0

/-- The number of calls in a command. -/
def calls : Command → Nat
  | .call _ _ => 1
  | _ => 0

/-- The labels that are made for a command, with the next number of a supply. -/
def minted (supply : LabelSupply) : Command → List String
  | .arithmetic .eq => ["EQ_TRUE_", "EQ_END_"].map (· ++ supply.nextComparison.value.repr)
  | .arithmetic .gt => ["GT_TRUE_", "GT_END_"].map (· ++ supply.nextComparison.value.repr)
  | .arithmetic .lt => ["LT_TRUE_", "LT_END_"].map (· ++ supply.nextComparison.value.repr)
  | .call name _ => [name ++ "$ret." ++ supply.nextReturn.value.repr]
  | _ => []

/-- An operation with a jump is a comparison, and has two labels. -/
theorem minted_of_jump? {op : Operation} {jump : Jump} (h : op.jump? = some jump)
    (supply : LabelSupply) : comparisons (.arithmetic op) = 1 ∧ minted supply (.arithmetic op) =
      [op.trueStem ++ supply.nextComparison.value.repr,
        op.finishStem ++ supply.nextComparison.value.repr] := by
  cases op with
  | eq | gt | lt => exact ⟨rfl, rfl⟩
  | _ => cases h

/-- An operation without a jump is none, and has no labels. -/
theorem minted_of_jump?_eq_none {op : Operation} (h : op.jump? = none) (supply : LabelSupply) :
    comparisons (.arithmetic op) = 0 ∧ minted supply (.arithmetic op) = [] := by
  cases op with
  | eq | gt | lt => cases h
  | _ => exact ⟨rfl, rfl⟩

end Command

/-- The context after a command that has code. -/
structure Context.Advances (ctx : Context) (command : Command) (ctx' : Context) : Prop where
  unit : ctx'.unit = ctx.unit
  function : ctx'.function? = command.begins?.or ctx.function?
  comparisons : ctx'.labels.nextComparison.value =
    ctx.labels.nextComparison.value + command.comparisons
  returns : ctx'.labels.nextReturn.value = ctx.labels.nextReturn.value + command.calls
  declared : ∀ label, ctx'.isDeclared label = true ↔
    label ∈ command.minted ctx.labels ∨ ctx.isDeclared label = true

section Refusal

variable {command : Command} {cause : CommandError}

/-- A command out of its bounds is refused before anything is done for it. -/
theorem lower_of_outOfBounds (options : Options) (ctx : Context)
    (h : command.checkBounds = .error cause) :
    lower options ctx command = .ok (.error cause, ctx) := by
  simp only [lower, h]

/-- So is a store into a constant. -/
theorem lower_popConstant (options : Options) (ctx : Context) {index : Word}
    (h : (Command.pop .constant index).checkBounds = .ok ()) :
    lower options ctx (.pop .constant index) = .ok (.error .popConstant, ctx) := by
  simp only [lower, h]
  rfl

/-- A command that is not readable is refused, and leaves the context as it was. -/
theorem lower_of_refused (options : Options) (ctx : Context)
    (h : (∃ index, command = .pop .constant index) ∨ command.checkBounds ≠ .ok ()) :
    ∃ cause, lower options ctx command = .ok (.error cause, ctx) := by
  cases hbounds : command.checkBounds with
  | error cause => exact ⟨cause, lower_of_outOfBounds options ctx hbounds⟩
  | ok _ =>
      rcases h with ⟨index, rfl⟩ | hne
      · exact ⟨.popConstant, lower_popConstant options ctx hbounds⟩
      · exact absurd hbounds hne

end Refusal

section Code

variable {options : Options} {ctx ctx' : Context} {command : Command} {code : List Instruction}

/-- There is a number for a comparison below the last one. -/
theorem Context.exists_mintComparison (h : ctx.labels.nextComparison.value < 4294967295)
    (op : Operation) : ∃ labels ctx', ctx.mintComparison op = .ok (labels, ctx') :=
  ⟨_, _, map_eq_ok_iff.mpr ⟨_, map_eq_ok_iff.mpr ⟨_, Counter.next_eq_ok _ h, rfl⟩, rfl⟩⟩

/-- There is a number for a call below the last one. -/
theorem Context.exists_mintReturn (h : ctx.labels.nextReturn.value < 4294967295)
    (callee : String) : ∃ label ctx', ctx.mintReturn callee = .ok (label, ctx') :=
  ⟨_, _, map_eq_ok_iff.mpr ⟨_, map_eq_ok_iff.mpr ⟨_, Counter.next_eq_ok _ h, rfl⟩, rfl⟩⟩

/-- A command within its bounds that stores into no constant has code. -/
theorem exists_lower (hbounds : command.checkBounds = .ok ())
    (hplace : ∀ index, command ≠ .pop .constant index)
    (hcomparison : ctx.labels.nextComparison.value < 4294967295)
    (hreturn : ctx.labels.nextReturn.value < 4294967295) :
    ∃ code ctx', lower options ctx command = .ok (.ok code, ctx') := by
  have hbounded : ∀ {code ctx'}, Lowering.bounded options ctx command = .ok (.ok code, ctx') →
      ∃ code ctx', lower options ctx command = .ok (.ok code, ctx') :=
    fun hcode => ⟨_, _, lower_eq_ok_ok_iff.mpr ⟨hbounds, hcode⟩⟩
  cases command with
  | push segment index =>
      rcases exists_lower_push options ctx hbounds with ⟨access, -, hlower⟩
      exact ⟨_, _, hlower⟩
  | pop segment index =>
      have hsegment : segment ≠ .constant := by
        rintro rfl
        exact hplace index rfl
      rcases exists_lower_pop options ctx hbounds hsegment with ⟨access, code, -, -, hlower⟩
      exact ⟨_, _, hlower⟩
  | arithmetic op =>
      cases op with
      | eq | gt | lt =>
          rcases Context.exists_mintComparison hcomparison _ with ⟨labels, ctx', hmint⟩
          exact hbounded (map_eq_ok_iff.mpr ⟨_, map_eq_ok_iff.mpr ⟨_, hmint, rfl⟩, rfl⟩)
      | _ => exact hbounded rfl
  | call name args =>
      rcases Context.exists_mintReturn hreturn name with ⟨label, ctx', hmint⟩
      exact hbounded (map_eq_ok_iff.mpr ⟨_, hmint, rfl⟩)
  | _ => exact hbounded rfl

/-- A command that makes no labels leaves the numbers and the labels as they are. -/
theorem Context.advances_of_labels_eq (hplace : ctx'.unit = ctx.unit ∧
      ctx'.function? = command.begins?.or ctx.function?) (hlabels : ctx'.labels = ctx.labels)
    (hdeclared : ctx'.declared = ctx.declared) (hminted : command.minted ctx.labels = [])
    (hcomparisons : command.comparisons = 0) (hcalls : command.calls = 0) :
    ctx.Advances command ctx' := by
  refine ⟨hplace.1, hplace.2, ?_, ?_, ?_⟩
  · rw [hlabels, hcomparisons, Nat.add_zero]
  · rw [hlabels, hcalls, Nat.add_zero]
  · intro label
    rw [isDeclared, isDeclared, hdeclared, hminted]
    simp

/-- The labels of a comparison carry its number, and are recorded. -/
theorem Context.advances_of_mintComparison {op : Operation} {jump : Jump}
    {labels : ComparisonLabels} (hop : op.jump? = some jump)
    (hplace : ctx'.unit = ctx.unit ∧ ctx'.function? = ctx.function?)
    (h : ctx.mintComparison op = .ok (labels, ctx')) :
    ctx.Advances (.arithmetic op) ctx' ∧
      Command.minted ctx.labels (.arithmetic op) = [labels.ifTrue, labels.finish] := by
  have hdeclared := (gives_of_mintComparison hop h).2
  rcases LabelSupply.comparison_eq_ok_iff.mp (comparison_of_mint h) with ⟨rfl, hvalue, hreturn⟩
  rcases Command.minted_of_jump? hop ctx.labels with ⟨hcomparisons, hminted⟩
  refine ⟨⟨hplace.1, hplace.2, ?_, congrArg Counter.value hreturn, ?_⟩, hminted⟩
  · rw [hcomparisons]
    exact hvalue
  · rw [hminted]
    exact hdeclared

/-- The label behind a call carries its number, and is recorded. -/
theorem Context.advances_of_mintReturn {name label : String} (args : Word)
    (h : ctx.mintReturn name = .ok (label, ctx')) :
    ctx.Advances (.call name args) ctx' ∧
      Command.minted ctx.labels (.call name args) = [label] := by
  rcases map_eq_ok_iff.mp h with ⟨⟨minted, supply⟩, hsupply, heq⟩
  cases heq
  rcases LabelSupply.returnAddress_eq_ok_iff.mp hsupply with ⟨rfl, hvalue, hcomparison⟩
  refine ⟨⟨rfl, rfl, congrArg Counter.value hcomparison, hvalue, ?_⟩, rfl⟩
  intro label
  rw [isDeclared_declare]
  exact or_congr_left List.mem_singleton.symm

/-- What the context takes note of, and the labels of the code: the one that the
    command declares and those that were made for it. -/
theorem Lowers.advances (h : Lowers options ctx command code ctx') :
    ctx.Advances command ctx' ∧ declaredLabels code =
      ((command.declaration? options ctx).map Prod.snd).toList ++ command.minted ctx.labels := by
  have hplace := h.place
  -- Comparisons and calls are told apart from the rest by their labels, which is all
  -- that the context has to note of a command, a function that begins apart.
  cases h with
  | compare hop hmint =>
      rcases Context.advances_of_mintComparison hop hplace hmint with ⟨hadvances, hminted⟩
      exact ⟨hadvances, by rw [hminted]; rfl⟩
  | call hmint =>
      rcases Context.advances_of_mintReturn _ hmint with ⟨hadvances, hminted⟩
      exact ⟨hadvances, by rw [hminted]; rfl⟩
  | function name locals =>
      exact ⟨Context.advances_of_labels_eq hplace rfl rfl rfl rfl rfl,
        declaredLabels_enter name locals⟩
  | push _ _ =>
      exact ⟨Context.advances_of_labels_eq hplace rfl rfl rfl rfl rfl, declaredLabels_push _⟩
  | pop _ _ hpop =>
      exact ⟨Context.advances_of_labels_eq hplace rfl rfl rfl rfl rfl, declaredLabels_pop hpop⟩
  | inPlace hop hcode =>
      rcases Command.minted_of_jump?_eq_none hop ctx.labels with ⟨hcomparisons, hminted⟩
      refine ⟨Context.advances_of_labels_eq hplace rfl rfl hminted hcomparisons rfl, ?_⟩
      rw [declaredLabels_operation hop hcode, hminted]
      rfl
  | label | goto | ifGoto | ret =>
      exact ⟨Context.advances_of_labels_eq hplace rfl rfl rfl rfl rfl, rfl⟩

end Code

/-- A written command is read back if it can be lowered. -/
theorem Command.parse_render_iff {command : Command}
    (hnames : ∀ name, command.name? = some name → isName name = true) :
    parse command.render = .ok command ↔
      command.checkBounds = .ok () ∧ ∀ index, command ≠ .pop .constant index := by
  constructor
  · intro hparse
    have hformed := wellFormed_of_parse hparse
    exact ⟨hformed.bounds, hformed.place⟩
  · rintro ⟨hbounds, hplace⟩
    have hformed : command.WellFormed := ⟨hnames, hbounds, hplace⟩
    have hread := parse_of_words hformed (Eq.refl (Text.words command.render.toList))
    rwa [String.ofList_toList] at hread

/-- Lowering accepts what reading does, and refuses the rest without a trace. As long
    as there are numbers left, lowering comes to a result. It refuses a command
    exactly if this stores into a constant or is out of its bounds, and then the
    context is what it was. If the names are names, the command has code exactly if
    its text is read back as the command. For a command that has code no sum
    overflows; its comparisons and calls are counted, the function that begins is
    noted and so are the labels that are made for the command, which are those of its
    code except for the one that it declares; and nothing else is. -/
theorem lower_accepts_readable (options : Options) {ctx : Context} (command : Command)
    (hcomparison : ctx.labels.nextComparison.value < 4294967295)
    (hreturn : ctx.labels.nextReturn.value < 4294967295) :
    ∃ result ctx', lower options ctx command = .ok (result, ctx') ∧
      ((∃ cause, result = .error cause) ↔
        (∃ index, command = .pop .constant index) ∨ command.checkBounds ≠ .ok ()) ∧
      (∀ cause, result = .error cause → ctx' = ctx) ∧
      ((∀ name, command.name? = some name → isName name = true) →
        ((∃ code, result = .ok code) ↔ Command.parse command.render = .ok command)) ∧
      ∀ code, result = .ok code →
        (∀ name args, command = .call name args → args.toNat + frameSize.toNat < 65536) ∧
        ctx.Advances command ctx' ∧
        declaredLabels code = ((command.declaration? options ctx).map Prod.snd).toList ++
          command.minted ctx.labels := by
  have haccepted : command.checkBounds = .ok () ∧ (∀ index, command ≠ .pop .constant index) ↔
      ¬((∃ index, command = .pop .constant index) ∨ command.checkBounds ≠ .ok ()) := by
    rw [not_or, not_exists, not_not, and_comm]
  -- A refused command needs no number, and for any other there is one left.
  by_cases hrefused : (∃ index, command = .pop .constant index) ∨ command.checkBounds ≠ .ok ()
  · rcases lower_of_refused options ctx hrefused with ⟨cause, hlower⟩
    refine ⟨.error cause, ctx, hlower, ?_, fun _ _ => rfl, ?_, ?_⟩
    · exact ⟨fun _ => hrefused, fun _ => ⟨cause, rfl⟩⟩
    · intro hnames
      rw [Command.parse_render_iff hnames, haccepted]
      constructor
      · rintro ⟨code, hcode⟩
        cases hcode
      · intro hnot
        exact absurd hrefused hnot
    · intro code hcode
      cases hcode
  · rcases haccepted.mpr hrefused with ⟨hbounds, hplace⟩
    rcases exists_lower hbounds hplace hcomparison hreturn with ⟨code, ctx', hlower⟩
    refine ⟨.ok code, ctx', hlower, ?_, ?_, ?_, ?_⟩
    · constructor
      · rintro ⟨cause, hcause⟩
        cases hcause
      · intro hnot
        exact absurd hnot hrefused
    · intro cause hcause
      cases hcause
    · intro hnames
      rw [Command.parse_render_iff hnames]
      exact ⟨fun _ => ⟨hbounds, hplace⟩, fun _ => ⟨code, rfl⟩⟩
    · rintro _ ⟨⟩
      refine ⟨?_, (lowers_of_lower hlower).advances⟩
      -- The greatest number of arguments leaves room for a frame.
      rintro name args rfl
      have hargs : args.toNat ≤ maxArguments.toNat := Command.checkIndex_eq_ok_iff.mp hbounds
      have hsum : maxArguments.toNat + frameSize.toNat < 65536 := by decide
      omega

/-- A context that has given out nearly all the numbers of its calls. -/
def crowdedContext : Context :=
  { unit := "Main"
    labels := { nextComparison := ⟨11, by decide⟩, nextReturn := ⟨4294967292, by decide⟩ }
    function? := some "Main.main"
    declared := Std.TreeSet.ofList ["EQ_END_10", "LOOP"] }

theorem lower_accepts_readable_crowdedContext :
    crowdedContext.labels.nextComparison.value < 4294967295 ∧
      crowdedContext.labels.nextReturn.value < 4294967295 ∧
      (∃ code ctx', lower .default crowdedContext (.call "f" 32762) = .ok (.ok code, ctx') ∧
        Command.parse "call f 32762" = .ok (.call "f" 32762) ∧
        ctx'.labels.nextReturn.value = 4294967293 ∧
        (ctx'.isDeclared "f$ret.4294967292" = true ∧ ctx'.isDeclared "LOOP" = true) ∧
        declaredLabels code = ["f$ret.4294967292"]) ∧
      ∃ cause, lower .default crowdedContext (.pop .constant 1) =
        .ok (.error cause, crowdedContext) := by
  have hcomparison : crowdedContext.labels.nextComparison.value < 4294967295 := by decide
  have hreturn : crowdedContext.labels.nextReturn.value < 4294967295 := by decide
  refine ⟨hcomparison, hreturn, ?_, ?_⟩
  · rcases lower_accepts_readable .default (.call "f" 32762) hcomparison hreturn with
      ⟨result, ctx', hlower, hrefused, -, hread, hcode⟩
    cases result with
    | error cause =>
        rcases hrefused.mp ⟨cause, rfl⟩ with ⟨index, hpop⟩ | hbounds
        · cases hpop
        · exact absurd rfl hbounds
    | ok code =>
        have hparse := (hread (by rintro name ⟨⟩; decide)).mp ⟨code, rfl⟩
        rcases hcode code rfl with ⟨-, hadvances, hlabels⟩
        refine ⟨code, ctx', hlower, hparse, hadvances.returns, ⟨?_, ?_⟩, hlabels⟩
        · exact (hadvances.declared _).mpr (Or.inl (by decide))
        · exact (hadvances.declared _).mpr (Or.inr (by decide))
  · rcases lower_accepts_readable .default (.pop .constant 1) hcomparison hreturn with
      ⟨result, ctx', hlower, hrefused, hsame, -⟩
    rcases hrefused.mpr (Or.inl ⟨1, rfl⟩) with ⟨cause, rfl⟩
    cases hsame cause rfl
    exact ⟨cause, hlower⟩

end HackVM
