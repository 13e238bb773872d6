/-
  PresenceTable.Diagnostic
  ────────────────────────
  **DIAGNOSTICS.**

  What is reported about single lines of a listing.  Warnings can be kept
  from view, but they are counted all the same.

  Main results:
    * `count_append` — counts add up;
    * `shown_of_error` — errors are never kept from view.
-/
import PresenceTable.Bytes

namespace PresenceTable

/-- How grave a diagnostic is. -/
inductive Severity where
  | warning
  | error
  deriving DecidableEq, Repr

/-- The word for a severity. -/
def Severity.label : Severity → Bytes
  | .warning => "WARNING"
  | .error => "ERROR"

/-- A remark on one line of a listing. -/
structure Diagnostic where
  severity : Severity
  path : Bytes
  line : UInt32
  message : Bytes
  deriving DecidableEq, Repr

namespace Diagnostic

/-- A diagnostic in one line. -/
def text (d : Diagnostic) : Bytes :=
  d.path ++ ":" ++ Bytes.decimal d.line.toNat ++ ": " ++ d.severity.label ++ ": " ++ d.message

/-- What is shown of a diagnostic. -/
def shown (d : Diagnostic) (showWarnings : Bool) : Bytes :=
  if d.severity = .warning ∧ showWarnings = false then [] else d.text ++ "\n"

/-- What is shown of all these diagnostics. -/
def shownAll (ds : List Diagnostic) (showWarnings : Bool) : Bytes :=
  ds.flatMap (·.shown showWarnings)

/-- The number of diagnostics of a severity. -/
def count (severity : Severity) (ds : List Diagnostic) : Nat :=
  ds.countP (·.severity = severity)

theorem count_append (severity : Severity) (ds es : List Diagnostic) :
    count severity (ds ++ es) = count severity ds + count severity es := by
  simp [count]

theorem shown_of_error {d : Diagnostic} (h : d.severity = .error) (showWarnings : Bool) :
    d.shown showWarnings = d.text ++ "\n" := by
  simp [shown, h]

end Diagnostic

end PresenceTable
