import HackVM.Proofs.Counts

/-!
# Histories of a Log

Whatever is done to a log, its counts stay right.

A log is filled in four ways: with a message, with the cause for which a command was
refused, with a warning, or with the messages of another log. The other log may come
from outside and be wrong about itself, so its counts are worth nothing. They are
not looked at, and each of its messages is added as if it were new. For the log that
is filled a history of any kind is therefore a row of single messages, and what is
true of a row is true of the history.

A count has 64 bits. A row is added as a whole if the counts of the log have room
for it, and otherwise not at all; in what order the messages come makes no
difference to that.

## Main definitions

* `LogAction`: What can be done to a log.
* `LogAction.messages`: The messages that this adds.
* `Log.ofHistory`: The log after a history.

## Theorems

* `Log.entries_of_pushes`: A row of messages is added at the end.
* `Log.exists_pushes_iff`: There is room for a row of messages if the counts stay
  within their limits.
* `Log.foldlM_apply_eq_pushes`: A history is a row of messages.
* `Log.extend_bind_extend`: Two logs are added as one.
* `history_counted`: The counts of a log are the numbers of its messages.
-/

namespace HackVM

/-- What can be done to a log. -/
inductive LogAction where
  /-- Add a message. -/
  | push (d : Diagnostic)
  /-- Add the cause for which a command was refused. -/
  | error (cause : CommandError) (location : Location)
  /-- Add a warning. -/
  | warning (message : String) (location : Location)
  /-- Add the messages of another log. -/
  | extend (other : Log)

namespace LogAction

/-- Do it to a log. -/
def apply (log : Log) : LogAction → Except Overflow Log
  | .push d => log.push d
  | .error cause location => log.push (.ofError cause location)
  | .warning message location => log.push (.ofWarning message location)
  | .extend other => log.extend other

/-- The messages that are added, in order. -/
def messages : LogAction → List Diagnostic
  | .push d => [d]
  | .error cause location =>
      [{ severity := .error, location := location, message := cause.message }]
  | .warning message location =>
      [{ severity := .warning, location := location, message := message }]
  | .extend other => other.entries.toList

/-- Each message is added as if it were new. -/
theorem apply_eq_pushes (log : Log) (action : LogAction) :
    action.apply log = action.messages.foldlM Log.push log := by
  have hsingle : ∀ d, log.push d = [d].foldlM Log.push log := by
    intro d
    rw [List.foldlM_cons]
    exact (bind_pure (log.push d)).symm
  cases action with
  | push d => exact hsingle d
  | error cause location => exact hsingle (.ofError cause location)
  | warning message location => exact hsingle (.ofWarning message location)
  | extend other => rfl

end LogAction

namespace Log

variable {log log' : Log} {ds : List Diagnostic}

/-- The log after a history, from the log without messages. -/
def ofHistory (history : List LogAction) : Except Overflow Log :=
  history.foldlM LogAction.apply .empty

/-- A row of messages is added at the end. -/
theorem entries_of_pushes (h : ds.foldlM push log = .ok log') :
    log'.entries.toList = log.entries.toList ++ ds := by
  induction ds generalizing log with
  | nil =>
      cases h
      rw [List.append_nil]
  | cons d ds ih =>
      rcases foldlM_cons_eq_ok_iff.mp h with ⟨mid, hmid, hrest⟩
      rw [ih hrest, entries_of_push hmid, List.append_assoc, List.singleton_append]

/-- There is room for a message if its count has not come to the limit. -/
theorem exists_push (d : Diagnostic)
    (h : (log.count d.severity).value < 18446744073709551615) : ∃ log', log.push d = .ok log' := by
  cases hpush : log.push d with
  | ok log' => exact ⟨log', rfl⟩
  | error overflow =>
      have hfull := push_eq_error_iff.mp hpush
      omega

/-- There is room for a row of messages if the counts stay within their limits. -/
theorem exists_pushes_iff :
    (∃ log', ds.foldlM push log = .ok log') ↔
      ∀ severity, (log.count severity).value + tally severity ds ≤ 18446744073709551615 := by
  constructor
  · rintro ⟨log', h⟩ severity
    rw [← count_of_pushes h]
    exact (log'.count severity).value_le
  · intro hroom
    induction ds generalizing log with
    | nil => exact ⟨log, rfl⟩
    | cons d ds ih =>
        have hsplit : ∀ severity,
            tally severity (d :: ds) = tally severity [d] + tally severity ds :=
          fun severity => tally_append severity [d] ds
        have hone : tally d.severity [d] = 1 := by simp [tally]
        have hfirst := hroom d.severity
        rw [hsplit, hone] at hfirst
        have hbelow : (log.count d.severity).value < 18446744073709551615 := by omega
        rcases exists_push d hbelow with ⟨mid, hmid⟩
        -- What the first message takes of the room is in the counts afterwards.
        have hrest : ∀ severity,
            (mid.count severity).value + tally severity ds ≤ 18446744073709551615 := by
          intro severity
          rw [count_of_push hmid, Nat.add_assoc, ← hsplit]
          exact hroom severity
        rcases ih hrest with ⟨log', hlog'⟩
        exact ⟨log', foldlM_cons_eq_ok_iff.mpr ⟨mid, hmid, hlog'⟩⟩

/-- A history is the row of its messages. -/
theorem foldlM_apply_eq_pushes (log : Log) (history : List LogAction) :
    history.foldlM LogAction.apply log =
      (history.flatMap LogAction.messages).foldlM push log := by
  induction history generalizing log with
  | nil => rfl
  | cons action history ih =>
      rw [List.foldlM_cons, List.flatMap_cons, List.foldlM_append, ← LogAction.apply_eq_pushes]
      exact congrArg _ (funext ih)

/-- Two logs are added as one with the messages of both. -/
theorem extend_bind_extend {first second both : Log}
    (h : both.entries = first.entries ++ second.entries) (log : Log) :
    (log.extend first >>= fun next => next.extend second) = log.extend both := by
  rw [extend, extend, h, Array.toList_append, List.foldlM_append]
  rfl

end Log

/-- The counts of a log are the numbers of its messages. A history of additions
    succeeds if its errors and its warnings can be counted, each in 64 bits. The log
    then holds all messages that were added, in order, those of other logs among them
    whatever these say about their number. It counts its errors and its warnings, and
    says that there are errors if there are any. Another log can be added in two
    parts or as a whole. -/
theorem history_counted (history : List LogAction) :
    ((∃ log, Log.ofHistory history = .ok log) ↔
      ∀ severity,
        Log.tally severity (history.flatMap LogAction.messages) ≤ 18446744073709551615) ∧
    ∀ log, Log.ofHistory history = .ok log →
      log.entries.toList = history.flatMap LogAction.messages ∧
      log.errors.value = Log.tally .error log.entries.toList ∧
      log.warnings.value = Log.tally .warning log.entries.toList ∧
      (log.hasErrors = true ↔ ∃ d ∈ log.entries.toList, d.severity = .error) ∧
      ∀ first second both : Log, both.entries = first.entries ++ second.entries →
        (log.extend first >>= fun next => next.extend second) = log.extend both := by
  rw [Log.ofHistory, Log.foldlM_apply_eq_pushes]
  constructor
  · rw [Log.exists_pushes_iff]
    -- Nothing is counted yet.
    have hzero : ∀ severity, (Log.empty.count severity).value = 0 := by
      intro severity
      cases severity <;> rfl
    simp only [hzero, Nat.zero_add]
  · intro log hlog
    have hcounted : log.Counted := foldlM_keeps Log.counted_of_push Log.counted_empty hlog
    exact ⟨Log.entries_of_pushes hlog, hcounted .error, hcounted .warning,
      Log.hasErrors_iff hcounted, fun first second both hboth => Log.extend_bind_extend hboth log⟩

/-- A log from outside that claims seven errors and no warning. -/
def boastingLog : Log :=
  { entries := #[{ severity := .warning, location := ⟨"Main", 2⟩, message := "late" },
      { severity := .error, location := ⟨"Main", 5⟩, message := "bad" }]
    errors := ⟨7, by decide⟩
    warnings := .zero }

/-- All four ways to fill a log. -/
def mixedHistory : List LogAction :=
  [.warning "early" ⟨"Main", 1⟩, .extend boastingLog, .error .popConstant ⟨"Main", 8⟩,
    .push { severity := .warning, location := ⟨"Sys", 0⟩, message := "last" }]

theorem history_counted_mixedHistory :
    ∃ log, Log.ofHistory mixedHistory = .ok log ∧ log.entries.size = 5 ∧
      log.errors.value = 2 ∧ log.warnings.value = 3 ∧ log.hasErrors = true ∧
      (log.extend boastingLog >>= fun next => next.extend log) =
        log.extend { boastingLog with entries := boastingLog.entries ++ log.entries } := by
  have hroom : ∀ severity,
      Log.tally severity (mixedHistory.flatMap LogAction.messages) ≤ 18446744073709551615 := by
    intro severity
    cases severity <;> decide
  rcases (history_counted mixedHistory).1.mpr hroom with ⟨log, hlog⟩
  rcases (history_counted mixedHistory).2 log hlog with
    ⟨hentries, herrors, hwarnings, hhas, hextend⟩
  refine ⟨log, hlog, ?_, ?_, ?_, ?_, hextend boastingLog log _ rfl⟩
  · rw [← Array.length_toList, hentries]
    rfl
  · rw [herrors, hentries]
    rfl
  · rw [hwarnings, hentries]
    rfl
  · rw [hhas, hentries]
    exact ⟨{ severity := .error, location := ⟨"Main", 5⟩, message := "bad" }, by decide, rfl⟩

end HackVM
