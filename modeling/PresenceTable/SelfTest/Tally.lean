/-
  PresenceTable.SelfTest.Tally
  ────────────────────────────
  **THE SUMMARY OF A SELF-TEST.**

  A runner runs one trial after another and adds the counters of each to
  its own.  The checks that passed are not counted: the summary takes them
  to be those that were made less the failures.
-/
import PresenceTable.SelfTest.Trial

namespace PresenceTable

/-! ## §1. Counting over trials. -/

/-- What was counted over some trials. -/
structure Tally where
  trials : Nat := 0
  failedTrials : Nat := 0
  checks : Nat := 0
  failedChecks : Nat := 0
  deriving DecidableEq, Repr

/-- The counts after one more trial, which ended like this. -/
def Tally.count (a : Tally) (attempt : Attempt) : Tally :=
  { trials := a.trials + 1
    failedTrials := a.failedTrials + if attempt.failed = 0 then 0 else 1
    checks := a.checks + attempt.total
    failedChecks := a.failedChecks + attempt.failed }

/-- What was counted and reported by trials that were run in a row. -/
structure Runner where
  tally : Tally := {}
  printed : List Notice := []
  deriving DecidableEq, Repr

namespace Runner

/-- Nothing has been run. -/
def start : Runner := {}

/-- Run one more trial. -/
def run (r : Runner) (t : Trial) : Runner :=
  { tally := r.tally.count (t.run r.printed)
    printed := (t.run r.printed).printed }

/-- Run trials in order. -/
def runAll (r : Runner) (ts : List Trial) : Runner := ts.foldl run r

end Runner

/-! ## §2. The summary. -/

namespace Tally

/-- The counts of some trials. -/
def ofTrials (ts : List Trial) : Tally := (Runner.start.runAll ts).tally

/-- The number of trials without failures. -/
def passedTrials (a : Tally) : Nat := a.trials - a.failedTrials

/-- The number of checks less that of the failures. -/
def passedChecks (a : Tally) : Int := a.checks - a.failedChecks

/-- Whether no trial failed. -/
def passed (a : Tally) : Bool := a.failedTrials == 0

/-- The exit status of a self-test. -/
def exitStatus (a : Tally) : UInt32 := if a.passed then 0 else 1

/-- The line about the trials. -/
def trialsLine (a : Tally) : Bytes :=
  "Tests:  " ++ Bytes.decimal a.trials ++ " run, " ++ Bytes.decimal a.passedTrials
    ++ " passed, " ++ Bytes.decimal a.failedTrials ++ " failed\n"

/-- The line about the checks. -/
def checksLine (a : Tally) : Bytes :=
  "Checks: " ++ Bytes.decimal a.checks ++ " total, " ++ Bytes.decimalInt a.passedChecks
    ++ " passed, " ++ Bytes.decimal a.failedChecks ++ " failed\n"

/-- The line that says how the self-test ended. -/
def verdictLine (a : Tally) : Bytes :=
  if a.passed then "ALL TESTS PASSED\n" else "SOME TESTS FAILED\n"

/-- The summary. -/
def text (a : Tally) : Bytes :=
  "\n=== Test Summary ===\n" ++ a.trialsLine ++ a.checksLine ++ a.verdictLine

end Tally

end PresenceTable
