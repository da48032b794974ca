import HackVM.Command.Error
import HackVM.Counter

/-!
# Diagnostics

Messages about a program, the places they point at, and the log that collects
them.

A log keeps its messages in the order of arrival and counts errors and
warnings as they come in. The counts are stored, not computed from the
messages: a log that is read back from outside is taken at its word, and only
what is added to it afterwards is counted here. Adding a message can overflow a
count and then fails.

## Main definitions

* `Location`: A line of a unit.
* `Severity`, `Diagnostic`: A message with its weight and place.
* `Log`: The messages so far, with their counts.
* `Log.push`, `Log.extend`: One message more, or all those of another log.
* `Log.summary`: The counts in words.
-/

namespace HackVM

/-- A line of a unit. Line zero stands for code that no line asked for. -/
structure Location where
  unit : String
  line : Nat
  deriving DecidableEq, Repr

/-- A location as messages show it. -/
def Location.render (location : Location) : String :=
  location.unit ++ ":" ++ location.line.repr

/-- The weight of a message. -/
inductive Severity where
  /-- The line has no code. -/
  | error
  /-- The line has code that may not do what was meant. -/
  | warning
  deriving DecidableEq, Repr

/-- A severity as messages show it. -/
def Severity.render : Severity → String
  | .error => "error"
  | .warning => "warning"

/-- A message about a line. -/
structure Diagnostic where
  severity : Severity
  location : Location
  message : String
  deriving DecidableEq, Repr

namespace Diagnostic

/-- The message about a refused command. -/
def ofError (cause : CommandError) (location : Location) : Diagnostic :=
  { severity := .error, location := location, message := cause.message }

/-- A message that does not stop the line. -/
def ofWarning (message : String) (location : Location) : Diagnostic :=
  { severity := .warning, location := location, message := message }

/-- A message as it is shown. -/
def render (d : Diagnostic) : String :=
  d.severity.render ++ " at " ++ d.location.render ++ ": " ++ d.message

end Diagnostic

/-- A count of messages has 64 bits. -/
abbrev MessageCount := Counter 18446744073709551615

/-- Messages in the order of arrival, with their counts. -/
structure Log where
  entries : Array Diagnostic
  errors : MessageCount
  warnings : MessageCount
  deriving DecidableEq, Repr

namespace Log

/-- The log without messages. -/
def empty : Log :=
  { entries := #[], errors := .zero, warnings := .zero }

/-- Count a message and add it at the end. -/
def push (log : Log) (d : Diagnostic) : Except Overflow Log :=
  match d.severity with
  | .error => log.errors.next.map fun count =>
      { log with entries := log.entries.push d, errors := count }
  | .warning => log.warnings.next.map fun count =>
      { log with entries := log.entries.push d, warnings := count }

/-- Add the messages of another log, whatever that log says about their number. -/
def extend (log other : Log) : Except Overflow Log :=
  other.entries.toList.foldlM push log

/-- Whether an error was counted. -/
def hasErrors (log : Log) : Bool :=
  0 < log.errors.value

/-- A number of things, with the plural where it is due. -/
def quantity (n : Nat) (noun : String) : String :=
  n.repr ++ " " ++ noun ++ if n = 1 then "" else "s"

/-- The counts in words. -/
def summary (log : Log) : String :=
  match log.errors.value, log.warnings.value with
  | 0, 0 => "No errors or warnings"
  | 0, w => quantity w "warning"
  | e, 0 => quantity e "error"
  | e, w => quantity e "error" ++ " and " ++ quantity w "warning"

end Log

end HackVM
