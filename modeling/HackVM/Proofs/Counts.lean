import HackVM.Proofs.Trace

/-!
# Counts of Messages

The counts of a log are the numbers of its messages.

A log stores how many errors and how many warnings it holds, and whoever asks
whether there were errors is answered from the count. The count is right because
it starts at zero and grows with every message: no part of the compiler touches
it in any other way. A log from outside may be wrong about itself, so that the
counts are right is a property of a log and not of its type.

A count can run out, and then the message is lost with everything else. Which
message that is does not depend on where the counting began. A log that is
compiled apart and put behind another one runs out when the two together do.

## Main definitions

* `Log.count`: The count of a severity.
* `Log.tally`: The number of messages of a severity.
* `Log.Counted`: The counts are the numbers of messages.

## Theorems

* `foldlM_keeps`: What every step of a run keeps, the run keeps.
* `Log.count_of_push`, `Log.push_eq_error_iff`: What one message more does to the
  counts, and when there is no room for it.
* `Log.push_bind_extend`: A message can be added before a log is put behind
  another, or afterwards.
* `Log.hasErrors_iff`: There are errors if the log says so.
* `Compiling.counted_of_line`: Compiling a line counts its messages.
* `counted_of_compileUnit`, `counted_of_compileProgram`: So does compiling a unit
  or a program.
-/

namespace HackVM

/-- What every step of a run keeps, the run keeps. -/
theorem foldlM_keeps {ε α β : Type} {f : β → α → Except ε β} {P : β → Prop}
    (hstep : ∀ {s x s'}, P s → f s x = .ok s' → P s') {xs : List α} {s s' : β} (hs : P s)
    (h : xs.foldlM f s = .ok s') : P s' := by
  induction xs generalizing s with
  | nil =>
      cases h
      exact hs
  | cons x xs ih =>
      rcases foldlM_cons_eq_ok_iff.mp h with ⟨mid, hmid, hrest⟩
      exact ih (hstep hs hmid) hrest

namespace Log

variable {log log' other : Log} {d : Diagnostic}

/-- The count of a severity. -/
def count (log : Log) : Severity → MessageCount
  | .error => log.errors
  | .warning => log.warnings

/-- The number of messages of a severity. -/
def tally (severity : Severity) (ds : List Diagnostic) : Nat :=
  ds.countP fun d => d.severity = severity

/-- The counts of the log are the numbers of its messages. -/
def Counted (log : Log) : Prop :=
  ∀ severity, (log.count severity).value = tally severity log.entries.toList

theorem tally_append (severity : Severity) (ds es : List Diagnostic) :
    tally severity (ds ++ es) = tally severity ds + tally severity es :=
  List.countP_append

theorem counted_empty : Log.empty.Counted := by
  intro severity
  cases severity <;> rfl

/-- One message more is counted under its severity. -/
theorem count_of_push (h : log.push d = .ok log') (severity : Severity) :
    (log'.count severity).value = (log.count severity).value + tally severity [d] := by
  unfold push at h
  cases hd : d.severity with
  | error =>
      simp only [hd] at h
      rcases map_eq_ok_iff.mp h with ⟨following, hnext, rfl⟩
      have hvalue := Counter.next_eq_ok_iff.mp hnext
      cases severity with
      | error => simpa [count, tally, hd] using hvalue
      | warning => simp [count, tally, hd]
  | warning =>
      simp only [hd] at h
      rcases map_eq_ok_iff.mp h with ⟨following, hnext, rfl⟩
      have hvalue := Counter.next_eq_ok_iff.mp hnext
      cases severity with
      | error => simp [count, tally, hd]
      | warning => simpa [count, tally, hd] using hvalue

/-- There is no room for a message if its count has come to the limit. -/
theorem push_eq_error_iff {overflow : Overflow} :
    log.push d = .error overflow ↔ (log.count d.severity).value = 18446744073709551615 := by
  have hcount : ∀ c : MessageCount,
      c.next = .error overflow ↔ c.value = 18446744073709551615 := by
    intro c
    constructor
    · intro hnext
      by_contra hne
      have hle := c.value_le
      rw [c.next_eq_ok (by omega)] at hnext
      cases hnext
    · exact c.next_eq_error
  unfold push
  cases hd : d.severity with
  | error => simp only [map_eq_error_iff, hcount, count]
  | warning => simp only [map_eq_error_iff, hcount, count]

theorem counted_of_push (hcounted : log.Counted) (h : log.push d = .ok log') : log'.Counted := by
  intro severity
  rw [count_of_push h, entries_of_push h, tally_append, hcounted severity]

/-- Every message of a row is counted. -/
theorem count_of_pushes {ds : List Diagnostic} (h : ds.foldlM push log = .ok log')
    (severity : Severity) :
    (log'.count severity).value = (log.count severity).value + tally severity ds := by
  induction ds generalizing log with
  | nil =>
      cases h
      rfl
  | cons d ds ih =>
      rcases foldlM_cons_eq_ok_iff.mp h with ⟨mid, hmid, hrest⟩
      rw [ih hrest, count_of_push hmid, Nat.add_assoc, ← tally_append, List.singleton_append]

/-- All messages of another log are counted. -/
theorem count_of_extend (h : log.extend other = .ok log') (severity : Severity) :
    (log'.count severity).value =
      (log.count severity).value + tally severity other.entries.toList :=
  count_of_pushes h severity

/-- A message can be added before a log is put behind another, or afterwards. -/
theorem push_bind_extend (hcounted : other.Counted) (log : Log) (d : Diagnostic) :
    (other.push d >>= log.extend) = log.extend other >>= (·.push d) := by
  cases hpush : other.push d with
  | ok other' =>
      -- The new message is the last one of either run.
      show log.extend other' = _
      rw [extend, extend, entries_of_push hpush, List.foldlM_append]
      simp only [List.foldlM_cons, List.foldlM_nil, bind_pure]
  | error overflow =>
      -- What is too much for one log is too much for both together.
      cases hextend : log.extend other with
      | error overflow' => rfl
      | ok log' =>
          have hfull := push_eq_error_iff.mp hpush
          have hcount := count_of_extend hextend d.severity
          rw [← hcounted d.severity, hfull] at hcount
          have hle := (log'.count d.severity).value_le
          exact (push_eq_error_iff.mpr (by omega)).symm

/-- There are errors if the log says so. -/
theorem hasErrors_iff (hcounted : log.Counted) :
    log.hasErrors = true ↔ ∃ d ∈ log.entries.toList, d.severity = .error := by
  have herrors : log.errors.value = tally .error log.entries.toList := hcounted .error
  rw [hasErrors, decide_eq_true_eq, herrors, tally, List.countP_pos_iff]
  simp only [decide_eq_true_eq]

end Log

namespace Compiling

variable {options : Options} {s s' : Compiling}

/-- The messages so far are counted. -/
def Counted (s : Compiling) : Prop :=
  s.output.log.Counted

theorem counted_of_report {d : Diagnostic} (hs : s.Counted) (h : s.report d = .ok s') :
    s'.Counted := by
  rcases map_eq_ok_iff.mp h with ⟨log, hlog, rfl⟩
  exact Log.counted_of_push hs hlog

theorem counted_of_declare {location : Location} {command : Command} (hs : s.Counted)
    (h : declare options location command s = .ok s') : s'.Counted := by
  unfold declare at h
  split at h
  · exact counted_of_report (s := { s with ctx := command.declareIn options s.ctx }) hs h
  · cases h
    exact hs

theorem counted_of_finish {location : Location} {text : String}
    {body : Except CommandError (List Instruction)} (hs : s.Counted)
    (h : finish location text body s = .ok s') : s'.Counted := by
  cases body with
  | ok code =>
      cases h
      exact hs
  | error cause =>
      rcases map_eq_ok_iff.mp h with ⟨reported, hreport, rfl⟩
      have hreported := counted_of_report hs hreport
      exact hreported

/-- Compiling a line counts its messages. -/
theorem counted_of_line {parsed : ParsedLine} (hs : s.Counted)
    (h : line options s parsed = .ok s') : s'.Counted := by
  unfold line at h
  cases hresult : parsed.result with
  | error cause =>
      simp only [hresult] at h
      exact counted_of_finish hs h
  | ok command =>
      simp only [hresult] at h
      rcases bind_eq_ok_iff.mp h with ⟨declared, hdeclare, hrest⟩
      rcases bind_eq_ok_iff.mp hrest with ⟨⟨body, ctx⟩, -, hfinish⟩
      have hdeclared := counted_of_declare hs hdeclare
      exact counted_of_finish (s := { declared with ctx := ctx }) hdeclared hfinish

/-- A new unit changes the context and nothing else, and its lines are counted. -/
theorem counted_of_nextUnit {unit : String × String} (hs : s.Counted)
    (h : nextUnit options s unit = .ok s') : s'.Counted :=
  foldlM_keeps (s := { s with ctx := s.ctx.beginUnit unit.1 }) counted_of_line hs h

theorem counted_of_begin (hs : s.Counted) (h : begin options s = .ok s') : s'.Counted := by
  unfold begin at h
  split at h
  · rcases map_eq_ok_iff.mp h with ⟨minted, -, rfl⟩
    exact hs
  · cases h
    exact hs

end Compiling

/-- Compiling a unit counts its messages. -/
theorem counted_of_compileUnit {options : Options} {ctx : Context} {text : String} {s : Compiling}
    (h : compileUnit options ctx text = .ok s) : s.Counted := by
  rcases bind_eq_ok_iff.mp h with ⟨begun, hbegin, hsource⟩
  have hbegun : begun.Counted :=
    Compiling.counted_of_begin (s := .initial options ctx) Log.counted_empty hbegin
  exact foldlM_keeps Compiling.counted_of_line hbegun hsource

/-- Compiling a program counts its messages. -/
theorem counted_of_compileProgram {options : Options} {units : List (String × String)}
    {compilation : Compilation} (h : compileProgram options units = .ok compilation) :
    compilation.log.Counted := by
  cases units with
  | nil =>
      cases h
      exact Log.counted_empty
  | cons unit units =>
      rcases unit with ⟨name, text⟩
      rcases bind_eq_ok_iff.mp h with ⟨s, hunit, hrest⟩
      rcases bind_eq_ok_iff.mp hrest with ⟨s', hunits, heq⟩
      cases heq
      exact foldlM_keeps Compiling.counted_of_nextUnit (counted_of_compileUnit hunit) hunits

end HackVM
