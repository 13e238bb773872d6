/-
  PresenceTable.SelfTest.Trial
  ────────────────────────────
  **TRIALS.**

  A trial makes checks in order, until it is through or something is
  thrown.  While it is run two counters are kept, one of the checks that
  were made and one of the failures, and what happens is reported.  A check
  that does not hold is a failure, and the trial goes on.  What is thrown
  ends the trial; it is a failure too, but no check.
-/
import PresenceTable.Bytes

namespace PresenceTable

/-! ## §1. Checks and steps. -/

/-- Something that is expected of the program. -/
inductive Check where
  /-- A condition holds. -/
  | holds (condition : Bool) (description : Bytes)
  /-- A text is the expected one. -/
  | equal (actual expected description : Bytes)
  deriving DecidableEq, Repr

namespace Check

/-- Whether the program did as expected. -/
def passes : Check → Bool
  | .holds condition _ => condition
  | .equal actual expected _ => actual == expected

/-- What is said about a check that does not hold. -/
def complaint : Check → Bytes
  | .holds _ description => "  FAIL: " ++ description ++ "\n"
  | .equal actual expected description =>
    "  FAIL: " ++ description ++ "\n" ++ "    expected: " ++ expected ++ "\n"
      ++ "    actual:   " ++ actual ++ "\n"

end Check

/-- One step of a trial. -/
inductive TrialStep where
  | check (check : Check)
  /-- The trial ends with this text. -/
  | throw (text : Bytes)
  deriving DecidableEq, Repr

/-- Steps under a name. -/
structure Trial where
  name : Bytes
  steps : List TrialStep
  deriving DecidableEq, Repr

/-! ## §2. What is reported. -/

/-- Something that is reported while trials are run. -/
inductive Notice where
  /-- A trial of this name begins. -/
  | begins (name : Bytes)
  /-- A check does not hold. -/
  | failure (check : Check)
  /-- This text was thrown. -/
  | thrown (text : Bytes)
  /-- The trial is over without a failure, after so many checks. -/
  | ok (checks : Nat)
  deriving DecidableEq, Repr

/-- The wording of a notice. -/
def Notice.text : Notice → Bytes
  | .begins name => "TEST: " ++ name ++ "\n"
  | .failure check => check.complaint
  | .thrown text => "  EXCEPTION: " ++ Bytes.untilNul text ++ "\n"
  | .ok checks => "  OK (" ++ Bytes.decimal checks ++ " checks)\n"

/-! ## §3. Running a trial. -/

/-- The counters of a trial that is under way, and all that was reported so
far, by the trials before it as well. -/
structure Attempt where
  /-- The checks that were made. -/
  total : Nat := 0
  /-- The failures. -/
  failed : Nat := 0
  printed : List Notice := []
  deriving DecidableEq, Repr

namespace Attempt

/-- A trial begins, with counters of its own. -/
def start (printed : List Notice) (name : Bytes) : Attempt :=
  { printed := printed ++ [.begins name] }

/-- Make a check. -/
def check (a : Attempt) (c : Check) : Attempt :=
  if c.passes then { a with total := a.total + 1 }
  else
    { total := a.total + 1
      failed := a.failed + 1
      printed := a.printed ++ [.failure c] }

/-- Something is thrown. -/
def throw (a : Attempt) (text : Bytes) : Attempt :=
  { a with
    failed := a.failed + 1
    printed := a.printed ++ [.thrown text] }

/-- Take steps, up to the first throw. -/
def follow (a : Attempt) : List TrialStep → Attempt
  | [] => a
  | .check c :: later => (a.check c).follow later
  | .throw text :: _ => a.throw text

/-- The trial is over. -/
def finish (a : Attempt) : Attempt :=
  if a.failed = 0 then { a with printed := a.printed ++ [.ok a.total] } else a

/-- The two counters after each check. -/
def trace (a : Attempt) : List TrialStep → List (Nat × Nat)
  | [] | .throw _ :: _ => []
  | .check c :: later => ((a.check c).total, (a.check c).failed) :: (a.check c).trace later

end Attempt

namespace Trial

/-- Run a trial, after what was reported before. -/
def run (t : Trial) (printed : List Notice) : Attempt :=
  ((Attempt.start printed t.name).follow t.steps).finish

/-- The numbers of checks and of failures after each check. -/
def counts (t : Trial) : List (Nat × Nat) := (Attempt.start [] t.name).trace t.steps

/-- What is reported while a trial is run. -/
def text (t : Trial) : Bytes := (t.run []).printed.flatMap Notice.text

end Trial

end PresenceTable
