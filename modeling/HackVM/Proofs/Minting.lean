import HackVM.Proofs.Labels
import HackVM.Proofs.Lexical

/-!
# Minting Labels

The shape of generated labels, and what a supply gives out over any number of
requests.

A generated label ends in a number. Behind a call it is the name of the function,
a mark and the number; in a comparison it is one of six texts and the number. The
test for this shape takes the digits off the end and looks at the stem that is
left. No stem ends in a digit, so the digits that are taken off are exactly the
number, whatever the name of the function looks like: it may hold the mark itself,
or be a generated label.

A request takes one number of one sequence, and its labels are not past before it
and past afterwards. Labels of later requests are therefore new, and the labels of
a row of requests are given out just as those of one request are. Only numbers can
run out: a row of requests is answered if both sequences have enough of them left.

## Main definitions

* `GeneratedShape`: The shapes of generated labels.
* `LabelRequest`: What a supply can be asked for.
* `LabelSupply.answer`, `LabelSupply.answerAll`: The labels for one request, and for
  a row of them.

## Theorems

* `isGenerated_iff`: The test for generated labels finds their shapes.
* `LabelSupply.Gives.append`: What is given out first and what is given out next
  are given out together.
* `LabelSupply.gives_answer`, `LabelSupply.gives_answerAll`: Requests give out labels.
* `LabelSupply.exists_answerAll_iff`: Requests are answered while there are numbers.
* `minted_labels_distinct`: Generated labels are recognised, and never repeated.
-/

namespace HackVM

/-- The shapes of generated labels. -/
inductive GeneratedShape : String → Prop
  | call {callee digits : String} : callee ≠ "" → IsDigits digits →
      GeneratedShape (callee ++ "$ret." ++ digits)
  | comparison {name tag digits : String} : name ∈ ["EQ", "GT", "LT"] →
      tag ∈ ["_TRUE_", "_END_"] → IsDigits digits → GeneratedShape (name ++ tag ++ digits)

section Shapes

/-- What is taken off the end of a label is a numeral. -/
theorem exists_numeral_of_numberedStem? {label stem : List Char}
    (h : numberedStem? label = some stem) :
    ∃ digits, Text.isNumeral digits = true ∧ label = stem ++ digits := by
  rcases Option.ite_none_left_eq_some.mp h with ⟨hne, hstem⟩
  rw [Option.some.injEq] at hstem
  refine ⟨(label.reverse.takeWhile Char.isDigit).reverse, ?_, ?_⟩
  · simp only [Text.isNumeral, Bool.and_eq_true, Bool.not_eq_true', List.all_eq_true,
      List.mem_reverse, List.isEmpty_reverse]
    exact ⟨Bool.of_not_eq_true hne, fun c hc => List.mem_takeWhile_imp hc⟩
  · rw [← hstem, ← List.reverse_append, List.takeWhile_append_dropWhile, List.reverse_reverse]

/-- A label has the shape of a generated one if it is a stem and a number. -/
theorem isGenerated_iff_exists_stem {label : String} :
    isGenerated label = true ↔ ∃ stem digits : String,
      (isReturnStem stem.toList = true ∨ isComparisonStem stem.toList = true) ∧
        IsDigits digits ∧ label = stem ++ digits := by
  constructor
  · intro h
    cases hsplit : numberedStem? label.toList with
    | none =>
        rw [isGenerated, hsplit] at h
        cases h
    | some stem =>
        rw [isGenerated, hsplit] at h
        rcases exists_numeral_of_numberedStem? hsplit with ⟨digits, hdigits, hlabel⟩
        refine ⟨String.ofList stem, String.ofList digits, ?_, ?_, ?_⟩
        · rw [String.toList_ofList]
          exact Bool.or_eq_true_iff.mp h
        · refine isNumeral_iff.mp ?_
          rwa [String.toList_ofList]
        · rw [← String.toList_inj, hlabel, String.toList_append, String.toList_ofList,
            String.toList_ofList]
  · rintro ⟨stem, digits, hstem, hdigits, rfl⟩
    rcases exists_last_of_stem hstem with ⟨last, hlast, hdigit⟩
    -- The stem ends before the digits do, so all of them are taken off and no more.
    have hsplit := (split_append_numeral hlast hdigit (isNumeral_iff.mpr hdigits)).1
    rw [isGenerated, String.toList_append, hsplit]
    exact Bool.or_eq_true_iff.mpr hstem

/-- The stem of a call is a name and the mark. -/
theorem isReturnStem_iff {stem : String} :
    isReturnStem stem.toList = true ↔ ∃ callee, callee ≠ "" ∧ stem = callee ++ "$ret." := by
  constructor
  · intro h
    rcases Bool.and_eq_true_iff.mp h with ⟨hsuffix, hlength⟩
    rcases List.isSuffixOf_iff_suffix.mp hsuffix with ⟨callee, hcallee⟩
    refine ⟨String.ofList callee, ?_, ?_⟩
    · -- Without a name the stem would be no longer than the mark.
      intro hempty
      have hnil : callee = [] := by
        rw [← String.toList_ofList (l := callee), hempty]
        rfl
      have hlt := of_decide_eq_true hlength
      rw [← hcallee, hnil, List.nil_append, String.length_toList] at hlt
      exact Nat.lt_irrefl _ hlt
    · rw [← String.toList_inj, ← hcallee, String.toList_append, String.toList_ofList]
      rfl
  · rintro ⟨callee, hcallee, rfl⟩
    exact isReturnStem_append hcallee

/-- The stems of comparisons are six texts. -/
theorem isComparisonStem_iff {stem : String} :
    isComparisonStem stem.toList = true ↔
      ∃ name ∈ ["EQ", "GT", "LT"], ∃ tag ∈ ["_TRUE_", "_END_"], stem = name ++ tag := by
  simp only [isComparisonStem, List.any_cons, List.any_nil, Bool.or_false, Bool.or_eq_true,
    beq_iff_eq, String.toList_inj, List.mem_cons, List.not_mem_nil, or_false, exists_eq_or_imp,
    exists_eq_left, eq_comm (a := stem)]
  rfl

/-- The test for generated labels finds their shapes. -/
theorem isGenerated_iff {label : String} : isGenerated label = true ↔ GeneratedShape label := by
  rw [isGenerated_iff_exists_stem]
  constructor
  · rintro ⟨stem, digits, hreturn | hcomparison, hdigits, rfl⟩
    · rcases isReturnStem_iff.mp hreturn with ⟨callee, hcallee, rfl⟩
      exact .call hcallee hdigits
    · rcases isComparisonStem_iff.mp hcomparison with ⟨name, hname, tag, htag, rfl⟩
      exact .comparison hname htag hdigits
  · intro hshape
    cases hshape with
    | call hcallee hdigits =>
        exact ⟨_, _, Or.inl (isReturnStem_iff.mpr ⟨_, hcallee, rfl⟩), hdigits, rfl⟩
    | comparison hname htag hdigits =>
        exact ⟨_, _, Or.inr (isComparisonStem_iff.mpr ⟨_, hname, _, htag, rfl⟩), hdigits, rfl⟩

end Shapes

/-- What a supply can be asked for. -/
inductive LabelRequest where
  /-- The two labels of a comparison. -/
  | comparison (op : Operation)
  /-- The label behind a call. -/
  | returnAddress (callee : String)

namespace LabelRequest

/-- The operation is a comparison, or the function has a name. -/
def Proper : LabelRequest → Prop
  | .comparison op => op ∈ [.eq, .gt, .lt]
  | .returnAddress callee => callee ≠ ""

instance : DecidablePred Proper
  | .comparison op => inferInstanceAs (Decidable (op ∈ [Operation.eq, .gt, .lt]))
  | .returnAddress callee => inferInstanceAs (Decidable (callee ≠ ""))

/-- The number of comparisons in a request. -/
def comparisons : LabelRequest → Nat
  | .comparison _ => 1
  | .returnAddress _ => 0

/-- The number of calls in a request. -/
def calls : LabelRequest → Nat
  | .comparison _ => 0
  | .returnAddress _ => 1

end LabelRequest

namespace LabelSupply

variable {supply mid supply' : LabelSupply} {labels others : List String}
  {request : LabelRequest} {requests : List LabelRequest}

/-- The labels for a request. -/
def answer (supply : LabelSupply) : LabelRequest → Except Overflow (List String × LabelSupply)
  | .comparison op =>
      (supply.comparison op).map fun (labels, following) =>
        ([labels.ifTrue, labels.finish], following)
  | .returnAddress callee =>
      (supply.returnAddress callee).map fun (label, following) => ([label], following)

/-- The labels for a row of requests, in order. -/
def answerAll (supply : LabelSupply) :
    List LabelRequest → Except Overflow (List String × LabelSupply)
  | [] => .ok ([], supply)
  | request :: requests => do
      let (labels, following) ← supply.answer request
      let (others, last) ← following.answerAll requests
      return (labels ++ others, last)

/-- A row of requests is answered if its first one is and the others go on from
    there. -/
theorem answerAll_cons_eq_ok_iff {given : List String} :
    supply.answerAll (request :: requests) = .ok (given, supply') ↔
      ∃ labels mid others, supply.answer request = .ok (labels, mid) ∧
        mid.answerAll requests = .ok (others, supply') ∧ given = labels ++ others := by
  constructor
  · intro h
    rcases bind_eq_ok_iff.mp h with ⟨⟨labels, mid⟩, hfirst, hrest⟩
    rcases bind_eq_ok_iff.mp hrest with ⟨⟨others, last⟩, hothers, heq⟩
    cases heq
    exact ⟨labels, mid, others, hfirst, hothers, rfl⟩
  · rintro ⟨labels, mid, others, hfirst, hothers, rfl⟩
    exact bind_eq_ok_iff.mpr ⟨_, hfirst, bind_eq_ok_iff.mpr ⟨_, hothers, rfl⟩⟩

/-- What is given out first and what is given out next are given out together. -/
theorem Gives.append (h : supply.Gives labels mid) (h' : mid.Gives others supply') :
    supply.Gives (labels ++ others) supply' where
  generated := by
    intro label hlabel
    rcases List.mem_append.mp hlabel with hfirst | hnext
    · exact h.generated label hfirst
    · exact h'.generated label hnext
  notPast := by
    intro label hlabel hpast
    rcases List.mem_append.mp hlabel with hfirst | hnext
    · exact h.notPast label hfirst hpast
    · exact h'.notPast label hnext (h.mono label hpast)
  past := by
    intro label hlabel
    rcases List.mem_append.mp hlabel with hfirst | hnext
    · exact h'.mono label (h.past label hfirst)
    · exact h'.past label hnext
  mono := fun label hpast => h'.mono label (h.mono label hpast)
  nodup := by
    -- In between, the labels of the first are past and those of the next are not.
    refine List.nodup_append.mpr ⟨h.nodup, h'.nodup, ?_⟩
    rintro label hfirst _ hnext rfl
    exact h'.notPast label hnext (h.past label hfirst)

/-- A request gives out its labels. -/
theorem gives_answer (hproper : request.Proper)
    (h : supply.answer request = .ok (labels, supply')) : supply.Gives labels supply' := by
  cases request with
  | comparison op =>
      have hjump : ∃ jump, op.jump? = some jump := by
        cases op with
        | eq | gt | lt => exact ⟨_, rfl⟩
        | _ => exact absurd hproper (by decide)
      rcases hjump with ⟨jump, hjump⟩
      rcases map_eq_ok_iff.mp h with ⟨⟨names, following⟩, hminted, heq⟩
      cases heq
      exact gives_comparison hjump hminted
  | returnAddress callee =>
      rcases map_eq_ok_iff.mp h with ⟨⟨label, following⟩, hminted, heq⟩
      cases heq
      exact gives_returnAddress hproper hminted

/-- A row of requests gives out its labels. -/
theorem gives_answerAll (hproper : ∀ request ∈ requests, request.Proper)
    (h : supply.answerAll requests = .ok (labels, supply')) : supply.Gives labels supply' := by
  -- The supply changes with each request, so it is left open in the induction.
  induction requests generalizing supply labels with
  | nil =>
      cases h
      exact gives_nil _
  | cons request requests ih =>
      rcases answerAll_cons_eq_ok_iff.mp h with ⟨first, mid, others, hfirst, hothers, rfl⟩
      rw [List.forall_mem_cons] at hproper
      exact (gives_answer hproper.1 hfirst).append (ih hproper.2 hothers)

/-- The labels took `m` numbers of comparisons and `n` numbers of calls. -/
structure Spends (supply : LabelSupply) (m n : Nat) (labels : List String)
    (supply' : LabelSupply) : Prop where
  comparisons : supply'.nextComparison.value = supply.nextComparison.value + m
  calls : supply'.nextReturn.value = supply.nextReturn.value + n
  length : labels.length = 2 * m + n

/-- A request takes one number, which a comparison uses twice. -/
theorem spends_answer (h : supply.answer request = .ok (labels, supply')) :
    supply.Spends request.comparisons request.calls labels supply' := by
  cases request with
  | comparison op =>
      rcases map_eq_ok_iff.mp h with ⟨⟨names, following⟩, hminted, heq⟩
      cases heq
      rcases comparison_eq_ok_iff.mp hminted with ⟨-, hvalue, hreturn⟩
      exact ⟨hvalue, congrArg Counter.value hreturn, rfl⟩
  | returnAddress callee =>
      rcases map_eq_ok_iff.mp h with ⟨⟨label, following⟩, hminted, heq⟩
      cases heq
      rcases returnAddress_eq_ok_iff.mp hminted with ⟨-, hvalue, hcomparison⟩
      exact ⟨congrArg Counter.value hcomparison, hvalue, rfl⟩

/-- A row of requests takes as many numbers as there are requests of each kind. -/
theorem spends_answerAll (h : supply.answerAll requests = .ok (labels, supply')) :
    supply.Spends (requests.map LabelRequest.comparisons).sum
      (requests.map LabelRequest.calls).sum labels supply' := by
  induction requests generalizing supply labels with
  | nil =>
      cases h
      exact ⟨rfl, rfl, rfl⟩
  | cons request requests ih =>
      rcases answerAll_cons_eq_ok_iff.mp h with ⟨first, mid, others, hfirst, hothers, rfl⟩
      have hspent := spends_answer hfirst
      have hrest := ih hothers
      simp only [List.map_cons, List.sum_cons]
      refine ⟨?_, ?_, ?_⟩
      · rw [hrest.comparisons, hspent.comparisons, Nat.add_assoc]
      · rw [hrest.calls, hspent.calls, Nat.add_assoc]
      · rw [List.length_append, hrest.length, hspent.length]
        omega

/-- A request is answered if there is a number for it. -/
theorem exists_answer
    (hcomparisons : supply.nextComparison.value + request.comparisons ≤ 4294967295)
    (hcalls : supply.nextReturn.value + request.calls ≤ 4294967295) :
    ∃ labels supply', supply.answer request = .ok (labels, supply') := by
  cases request with
  | comparison op =>
      have hminted : supply.comparison op =
          .ok (_, { nextComparison := ⟨_, hcomparisons⟩, nextReturn := supply.nextReturn }) :=
        comparison_eq_ok_iff.mpr ⟨rfl, rfl, rfl⟩
      exact ⟨_, _, map_eq_ok_iff.mpr ⟨_, hminted, rfl⟩⟩
  | returnAddress callee =>
      have hminted : supply.returnAddress callee =
          .ok (_, { nextComparison := supply.nextComparison, nextReturn := ⟨_, hcalls⟩ }) :=
        returnAddress_eq_ok_iff.mpr ⟨rfl, rfl, rfl⟩
      exact ⟨_, _, map_eq_ok_iff.mpr ⟨_, hminted, rfl⟩⟩

/-- A row of requests is answered if there are numbers for all of them. -/
theorem exists_answerAll_iff :
    (∃ labels supply', supply.answerAll requests = .ok (labels, supply')) ↔
      supply.nextComparison.value + (requests.map LabelRequest.comparisons).sum ≤ 4294967295 ∧
        supply.nextReturn.value + (requests.map LabelRequest.calls).sum ≤ 4294967295 := by
  constructor
  · rintro ⟨labels, supply', h⟩
    -- The numbers afterwards are within their limits, and say how many were taken.
    have hspent := spends_answerAll h
    rw [← hspent.comparisons, ← hspent.calls]
    exact ⟨supply'.nextComparison.value_le, supply'.nextReturn.value_le⟩
  · rintro ⟨hcomparisons, hcalls⟩
    induction requests generalizing supply with
    | nil => exact ⟨[], supply, rfl⟩
    | cons request requests ih =>
        simp only [List.map_cons, List.sum_cons] at hcomparisons hcalls
        have hroom : ∃ labels mid, supply.answer request = .ok (labels, mid) :=
          exists_answer (by omega) (by omega)
        rcases hroom with ⟨labels, mid, hfirst⟩
        -- What the first request takes is missing for the others.
        have hspent := spends_answer hfirst
        rw [← Nat.add_assoc, ← hspent.comparisons] at hcomparisons
        rw [← Nat.add_assoc, ← hspent.calls] at hcalls
        rcases ih hcomparisons hcalls with ⟨others, last, hothers⟩
        exact ⟨_, last, answerAll_cons_eq_ok_iff.mpr ⟨labels, mid, others, hfirst, hothers, rfl⟩⟩

end LabelSupply

/-- Generated labels are recognised, and never repeated. The test for them accepts
    a name with the mark of a call and a number, or one of the six texts of
    comparisons with a number, and nothing else. From any state of a supply, a row
    of requests for comparisons and for calls of functions with any names is
    answered if each sequence has a number for each of its requests. Then there
    are two labels for each comparison and one for each call, all labels are
    different, and all pass the test. -/
theorem minted_labels_distinct :
    (∀ label, isGenerated label = true ↔ GeneratedShape label) ∧
    ∀ (supply : LabelSupply) (requests : List LabelRequest),
      (∀ request ∈ requests, request.Proper) →
      ((∃ labels supply', supply.answerAll requests = .ok (labels, supply')) ↔
        supply.nextComparison.value + (requests.map LabelRequest.comparisons).sum ≤ 4294967295 ∧
          supply.nextReturn.value + (requests.map LabelRequest.calls).sum ≤ 4294967295) ∧
      ∀ labels supply', supply.answerAll requests = .ok (labels, supply') →
        labels.length = 2 * (requests.map LabelRequest.comparisons).sum +
          (requests.map LabelRequest.calls).sum ∧
        labels.Nodup ∧ ∀ label ∈ labels, isGenerated label = true := by
  refine ⟨fun label => isGenerated_iff, ?_⟩
  intro supply requests hproper
  refine ⟨LabelSupply.exists_answerAll_iff, ?_⟩
  intro labels supply' h
  have hgives := LabelSupply.gives_answerAll hproper h
  exact ⟨(LabelSupply.spends_answerAll h).length, hgives.nodup, hgives.generated⟩

/-- A supply that has given out labels of both kinds. -/
def startedSupply : LabelSupply :=
  { nextComparison := ⟨12, by decide⟩, nextReturn := ⟨1, by decide⟩ }

/-- Requests for functions whose names are generated labels themselves. -/
def lookalikeRequests : List LabelRequest :=
  [.returnAddress "f", .comparison .eq, .returnAddress "f$ret.1", .returnAddress "EQ_TRUE_12",
    .returnAddress "f", .comparison .eq]

theorem minted_labels_distinct_lookalikeRequests :
    (∀ request ∈ lookalikeRequests, request.Proper) ∧
      ∃ labels after, startedSupply.answerAll lookalikeRequests = .ok (labels, after) ∧
        labels = ["f$ret.1", "EQ_TRUE_12", "EQ_END_12", "f$ret.1$ret.2", "EQ_TRUE_12$ret.3",
          "f$ret.4", "EQ_TRUE_13", "EQ_END_13"] ∧
        labels.length = 8 ∧ labels.Nodup ∧ GeneratedShape "f$ret.1$ret.2" ∧
        ¬GeneratedShape "$ret.2" := by
  have hproper : ∀ request ∈ lookalikeRequests, request.Proper := by decide
  rcases minted_labels_distinct.2 startedSupply lookalikeRequests hproper with ⟨hroom, hlabels⟩
  rcases hroom.mpr (by decide) with ⟨labels, after, hanswer⟩
  rcases hlabels labels after hanswer with ⟨hlength, hnodup, hgenerated⟩
  have hlist : labels = ["f$ret.1", "EQ_TRUE_12", "EQ_END_12", "f$ret.1$ret.2",
      "EQ_TRUE_12$ret.3", "f$ret.4", "EQ_TRUE_13", "EQ_END_13"] := by
    cases hanswer
    decide
  refine ⟨hproper, labels, after, hanswer, hlist, hlength, hnodup, ?_, ?_⟩
  · refine (minted_labels_distinct.1 _).mp (hgenerated _ ?_)
    rw [hlist]
    decide
  · rw [← minted_labels_distinct.1]
    decide

end HackVM
