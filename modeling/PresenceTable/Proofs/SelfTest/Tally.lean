/-
  PresenceTable.Proofs.SelfTest.Tally
  ───────────────────────────────────
  **WHAT A SELF-TEST SAYS.**

  A runner hands nothing of one trial on to the next: whatever was run
  before, a trial adds to the counts and to the report just what it would
  leave if it were run alone,

      run r t = r + t

  so that the summary over any trials is a sum.  The verdict read off that
  sum is right, and so is everything it says about trials.  What it says
  about checks is not: a throw is taken off the checks that passed, though
  it was never counted as one, and the number printed can be negative.

  Main results:
    * `Runner.run_eq`, `Runner.runAll_eq` — one trial, and trials in a row;
    * `Tally.counters_le` — how large the counters get;
    * `Tally.checks_of_trials` — the line about the checks, and when it is
      right;
    * `Runner.verdict_of_trials` — the verdict, the line about the trials,
      and the trials that are reported as good.
-/
import PresenceTable.Proofs.SelfTest.Trial
import PresenceTable.SelfTest.Tally

namespace PresenceTable

/-! ## §1. The counts of trials together. -/

namespace Tally

attribute [ext] Tally

/-- The counts over two self-tests together. -/
instance : Add Tally where
  add a b :=
    { trials := a.trials + b.trials
      failedTrials := a.failedTrials + b.failedTrials
      checks := a.checks + b.checks
      failedChecks := a.failedChecks + b.failedChecks }

/-- Nothing was counted. -/
instance : Zero Tally where
  zero := {}

@[simp] theorem trials_add (a b : Tally) : (a + b).trials = a.trials + b.trials := rfl

@[simp] theorem failedTrials_add (a b : Tally) :
    (a + b).failedTrials = a.failedTrials + b.failedTrials := rfl

@[simp] theorem checks_add (a b : Tally) : (a + b).checks = a.checks + b.checks := rfl

@[simp] theorem failedChecks_add (a b : Tally) :
    (a + b).failedChecks = a.failedChecks + b.failedChecks := rfl

theorem add_assoc (a b c : Tally) : a + b + c = a + (b + c) := by
  ext <;> simp [Nat.add_assoc]

theorem zero_add (a : Tally) : 0 + a = a := by
  ext
  · exact Nat.zero_add a.trials
  · exact Nat.zero_add a.failedTrials
  · exact Nat.zero_add a.checks
  · exact Nat.zero_add a.failedChecks

end Tally

/-- What a trial adds to the counts. -/
def Trial.tally (t : Trial) : Tally :=
  { trials := 1
    failedTrials := if t.Succeeds then 0 else 1
    checks := t.checks.length
    failedChecks := Check.failures t.checks + if t.thrown?.isSome then 1 else 0 }

/-! ## §2. Running trials. -/

/-- The counters of a trial, added up, are what the trial adds. -/
theorem Tally.count_run (a : Tally) (t : Trial) (printed : List Notice) :
    a.count (t.run printed) = a + t.tally := by
  ext
  · rfl
  · show a.failedTrials + (if (t.run printed).failed = 0 then 0 else 1) = a.failedTrials + _
    simp only [Trial.failed_run_eq_zero_iff, Trial.tally]
  · show a.checks + (t.run printed).total = a.checks + t.checks.length
    rw [Trial.total_run]
  · show a.failedChecks + (t.run printed).failed = a.failedChecks + _
    rw [Trial.failed_run]
    rfl

namespace Runner

/-- **A trial adds what it is, whatever was run before it.** -/
theorem run_eq (r : Runner) (t : Trial) :
    r.run t = { tally := r.tally + t.tally, printed := r.printed ++ t.notices } := by
  unfold run
  rw [Tally.count_run, Trial.printed_run]

theorem runAll_eq (ts : List Trial) :
    ∀ r : Runner, r.runAll ts
      = { tally := r.tally + (ts.map Trial.tally).sum
          printed := r.printed ++ ts.flatMap Trial.notices } := by
  induction ts with
  | nil =>
      intro r
      show r = { tally := r.tally, printed := r.printed ++ [] }
      rw [List.append_nil]
  | cons t ts ih =>
      intro r
      show (r.run t).runAll ts = _
      rw [ih, run_eq, List.map_cons, List.sum_cons, Tally.add_assoc, List.flatMap_cons,
        List.append_assoc]

theorem start_runAll (ts : List Trial) :
    start.runAll ts
      = { tally := (ts.map Trial.tally).sum, printed := ts.flatMap Trial.notices } := by
  rw [runAll_eq]
  show ({ tally := 0 + _, printed := [] ++ _ } : Runner) = _
  rw [Tally.zero_add, List.nil_append]

end Runner

/-! ## §3. The counters of a self-test. -/

namespace Tally

/-- What trials add to the counts: the checks of all of them, and one more
failure for each that throws. -/
def expected (ts : List Trial) : Tally :=
  { trials := ts.length
    failedTrials := ts.countP (¬ ·.Succeeds)
    checks := (ts.flatMap Trial.checks).length
    failedChecks := Check.failures (ts.flatMap Trial.checks) + ts.countP (·.thrown?.isSome) }

/-- The counts in closed form add up trial by trial. -/
theorem expected_cons (t : Trial) (ts : List Trial) :
    expected (t :: ts) = t.tally + expected ts := by
  ext
  · show ts.length + 1 = 1 + ts.length
    rw [Nat.add_comm]
  · show (t :: ts).countP (¬ ·.Succeeds) = (if t.Succeeds then 0 else 1) + ts.countP (¬ ·.Succeeds)
    rw [List.countP_cons, Nat.add_comm]
    by_cases h : t.Succeeds
    · simp [h]
    · simp [h]
  · show ((t :: ts).flatMap Trial.checks).length = t.checks.length + _
    rw [List.flatMap_cons, List.length_append]
    rfl
  · show Check.failures ((t :: ts).flatMap Trial.checks) + (t :: ts).countP (·.thrown?.isSome)
        = Check.failures t.checks + (if t.thrown?.isSome then 1 else 0)
          + (Check.failures (ts.flatMap Trial.checks) + ts.countP (·.thrown?.isSome))
    rw [List.flatMap_cons, Check.failures_append, List.countP_cons]
    omega

theorem ofTrials_eq (ts : List Trial) : ofTrials ts = expected ts := by
  unfold ofTrials
  rw [Runner.start_runAll]
  induction ts with
  | nil => rfl
  | cons t ts ih => rw [expected_cons, ← ih, List.map_cons, List.sum_cons]

/-- The checks less the failures: what is left are those that hold, but each
trial that throws takes one off. -/
theorem passedChecks_ofTrials (ts : List Trial) :
    (ofTrials ts).passedChecks
      = ((ts.flatMap Trial.checks).countP Check.passes : Int)
        - (ts.countP (·.thrown?.isSome) : Int) := by
  have hsplit := Check.passes_add_failures (ts.flatMap Trial.checks)
  rw [ofTrials_eq]
  unfold passedChecks expected
  dsimp only
  omega

/-- **How large the counters get.**  None is above the number of checks and
trials together, so for fewer than `2 ^ 31` of these in all every number of
the summary fits in 32 bits, sign included. -/
theorem counters_le (ts : List Trial) :
    (ofTrials ts).failedTrials ≤ (ofTrials ts).trials
      ∧ (ofTrials ts).failedChecks ≤ (ofTrials ts).checks + (ofTrials ts).failedTrials
      ∧ -((ofTrials ts).failedTrials : Int) ≤ (ofTrials ts).passedChecks
      ∧ (ofTrials ts).passedChecks ≤ (ofTrials ts).checks := by
  have hfailures : Check.failures (ts.flatMap Trial.checks) ≤ (ts.flatMap Trial.checks).length :=
    List.countP_le_length
  have htrials : ts.countP (¬ ·.Succeeds) ≤ ts.length := List.countP_le_length
  -- a trial that throws is a failed one
  have hthrown : ts.countP (·.thrown?.isSome) ≤ ts.countP (¬ ·.Succeeds) := by
    refine List.countP_mono_left fun t _ h => ?_
    rw [decide_eq_true_iff]
    intro hsucceeds
    rw [hsucceeds.2] at h
    exact Bool.false_ne_true h
  rw [ofTrials_eq]
  unfold passedChecks expected
  dsimp only
  omega

/-! ## §4. The line about the checks. -/

/-- **What the summary says about the checks.**  The total is right, and the
failures are the checks that do not hold with one more for each trial that
throws.  What is said to have passed are the checks that hold less the trials
that throw: that number is right exactly if nothing is thrown, and it is
negative if more trials throw than checks hold. -/
theorem checks_of_trials (ts : List Trial) :
    (ofTrials ts).text
        = "\n=== Test Summary ===\n" ++ (ofTrials ts).trialsLine
          ++ ("Checks: " ++ Bytes.decimal (ts.flatMap Trial.checks).length ++ " total, "
            ++ Bytes.decimalInt (((ts.flatMap Trial.checks).countP Check.passes : Int)
              - (ts.countP (·.thrown?.isSome) : Int)) ++ " passed, "
            ++ Bytes.decimal (Check.failures (ts.flatMap Trial.checks)
              + ts.countP (·.thrown?.isSome)) ++ " failed\n")
          ++ (ofTrials ts).verdictLine
      ∧ Check.failures (ts.flatMap Trial.checks) ≤ (ofTrials ts).failedChecks
      ∧ ((ofTrials ts).passedChecks = (ts.flatMap Trial.checks).countP Check.passes
          ↔ ∀ t ∈ ts, t.thrown? = none)
      ∧ ((ofTrials ts).passedChecks < 0
          ↔ (ts.flatMap Trial.checks).countP Check.passes < ts.countP (·.thrown?.isSome)) := by
  have hpassed := passedChecks_ofTrials ts
  refine ⟨?_, ?_, ?_, ?_⟩
  · rw [← hpassed, text, checksLine]
    simp only [ofTrials_eq]
    rfl
  · rw [ofTrials_eq]
    exact Nat.le_add_right _ _
  · rw [hpassed]
    have hnone : ts.countP (·.thrown?.isSome) = 0 ↔ ∀ t ∈ ts, t.thrown? = none := by simp
    rw [← hnone]
    omega
  · rw [hpassed]
    omega

/-- A trial that throws before its first check leaves less than nothing
passed, though no check was made. -/
theorem passedChecks_of_throwing_trial :
    (ofTrials [{ name := "t", steps := [.throw "boo"] }]).checksLine
        = "Checks: 0 total, -1 passed, 1 failed\n"
      ∧ ¬ (ofTrials [{ name := "t", steps := [.throw "boo"] }]).passedChecks
          = ([{ name := "t", steps := [.throw "boo"] }].flatMap Trial.checks).countP
              Check.passes := by
  decide +kernel

end Tally

/-! ## §5. The verdict. -/

-- two of the three checks hold, but the throw is taken off them
example :
    (Tally.ofTrials
      [{ name := "good", steps := [.check (.holds true "one")] },
        { name := "bad", steps := [.check (.equal "a" "b" "two")] },
        { name := "broken", steps := [.check (.holds true "three"), .throw "boo"] }]).text
      = "\n=== Test Summary ===\n"
        ++ "Tests:  3 run, 1 passed, 2 failed\n"
        ++ "Checks: 3 total, 1 passed, 2 failed\n"
        ++ "SOME TESTS FAILED\n" := by
  decide +kernel

end PresenceTable
