import HackVM.Diagnostic
import HackVM.Exchange.Command
import HackVM.Lowering.Label

/-!
# Exchange Forms of Diagnostics

The forms of locations, messages, logs and label supplies.

The counts of a log and the numbers of a supply are part of their forms and are
taken as they are given.

## Main definitions

* `Severity.tag`: The tags of severities.
-/

namespace HackVM

instance : Exchange Location where
  encode l := .record [("unit", encode l.unit), ("line", encode l.line)]
  decode d := do pure { unit := ← d.get "unit", line := ← d.get "line" }

/-- The tag of a severity. -/
def Severity.tag : Severity → String
  | .error => "Error"
  | .warning => "Warning"

instance : Exchange Severity :=
  .enumeration [.error, .warning] Severity.tag

instance : Exchange Diagnostic where
  encode d :=
    .record [("severity", encode d.severity), ("location", encode d.location),
      ("message", encode d.message)]
  decode d := do
    pure { severity := ← d.get "severity", location := ← d.get "location",
           message := ← d.get "message" }

instance : Exchange Log where
  encode log :=
    .record [("diagnostics", encode log.entries.toList), ("error_count", encode log.errors),
      ("warning_count", encode log.warnings)]
  decode d := do
    let entries : List Diagnostic ← d.get "diagnostics"
    pure { entries := entries.toArray, errors := ← d.get "error_count",
           warnings := ← d.get "warning_count" }

instance : Exchange LabelSupply where
  encode s :=
    .record [("next_comparison", encode s.nextComparison), ("next_return", encode s.nextReturn)]
  decode d := do
    pure { nextComparison := ← d.get "next_comparison", nextReturn := ← d.get "next_return" }

end HackVM
