/-
  PresenceTable.Proofs.SelfTest.Trial
  ───────────────────────────────────
  **HOW A TRIAL ENDS.**

  A trial is judged by its counters, and these are kept on two ways: a
  check that does not hold adds to the failures, and so does a throw, which
  is no check.  Here both are read off the steps.  The checks in front of
  the first throw are the ones that are made, and the counters come to

      total  = checks made
      failed = checks that do not hold (+ 1 if something is thrown)

  whatever was reported before the trial began.

  Main results:
    * `Attempt.total_follow`, `Attempt.failed_follow`,
      `Attempt.printed_follow` — what steps add to the counters and to the
      report;
    * `Trial.failed_run_eq_zero_iff` — no failure is counted exactly if
      every check held and nothing was thrown;
    * `Trial.printed_run` — a trial only adds to the report, and what it
      adds depends on the trial alone;
    * `Trial.ok_mem_notices_iff` — it is reported as good exactly if it was;
    * `Trial.counts_eq` — the counters at every moment of a trial.
-/
import PresenceTable.SelfTest.Trial

namespace PresenceTable

/-! ## §1. What the steps of a trial ask for. -/

namespace TrialStep

/-- The checks in front of the first throw. -/
def performed : List TrialStep → List Check
  | [] | .throw _ :: _ => []
  | .check c :: later => c :: performed later

/-- What is thrown first, if anything is. -/
def thrown? : List TrialStep → Option Bytes
  | [] => none
  | .check _ :: later => thrown? later
  | .throw text :: _ => some text

end TrialStep

namespace Check

/-- The number of checks that do not hold. -/
def failures (cs : List Check) : Nat := cs.countP (! ·.passes)

/-- What is reported about checks: those that do not hold. -/
def notices (cs : List Check) : List Notice := (cs.filter (! ·.passes)).map .failure

theorem failures_append (cs ds : List Check) :
    failures (cs ++ ds) = failures cs + failures ds :=
  List.countP_append

theorem failures_cons (c : Check) (cs : List Check) :
    failures (c :: cs) = failures [c] + failures cs :=
  failures_append [c] cs

theorem notices_cons (c : Check) (cs : List Check) :
    notices (c :: cs) = notices [c] ++ notices cs := by
  unfold notices
  rw [← List.map_append, ← List.filter_append, List.singleton_append]

theorem failures_eq_zero_iff (cs : List Check) :
    failures cs = 0 ↔ ∀ c ∈ cs, c.passes = true := by
  simp [failures]

/-- Every check holds or is a failure. -/
theorem passes_add_failures (cs : List Check) :
    cs.countP Check.passes + failures cs = cs.length := by
  rw [List.length_eq_countP_add_countP Check.passes]
  simp [failures]

end Check

namespace Trial

/-- The checks that a trial makes. -/
def checks (t : Trial) : List Check := TrialStep.performed t.steps

/-- What ends a trial early, if anything does. -/
def thrown? (t : Trial) : Option Bytes := TrialStep.thrown? t.steps

/-- Every check that is made holds, and nothing is thrown. -/
def Succeeds (t : Trial) : Prop := (∀ c ∈ t.checks, c.passes = true) ∧ t.thrown? = none

instance (t : Trial) : Decidable t.Succeeds :=
  inferInstanceAs (Decidable (_ ∧ _))

end Trial

/-! ## §2. One step. -/

namespace Attempt

theorem printed_start (printed : List Notice) (name : Bytes) :
    (start printed name).printed = printed ++ [.begins name] := rfl

theorem total_check (a : Attempt) (c : Check) : (a.check c).total = a.total + 1 := by
  unfold check
  split <;> rfl

theorem failed_check (a : Attempt) (c : Check) :
    (a.check c).failed = a.failed + Check.failures [c] := by
  unfold check
  split
  · next h => simp [Check.failures, h]
  · next h => simp [Check.failures, h]

theorem printed_check (a : Attempt) (c : Check) :
    (a.check c).printed = a.printed ++ Check.notices [c] := by
  unfold check
  split
  · next h => simp [Check.notices, h]
  · next h => simp [Check.notices, h]

/-! ## §3. All steps. -/

theorem total_follow (steps : List TrialStep) :
    ∀ a : Attempt, (a.follow steps).total = a.total + (TrialStep.performed steps).length := by
  induction steps with
  | nil => intro a; rfl
  | cons step later ih =>
      intro a
      cases step with
      | check c =>
          show ((a.check c).follow later).total = _
          rw [ih, total_check, TrialStep.performed, List.length_cons]
          omega
      | throw text => rfl

theorem failed_follow (steps : List TrialStep) :
    ∀ a : Attempt, (a.follow steps).failed
      = a.failed + Check.failures (TrialStep.performed steps)
        + if (TrialStep.thrown? steps).isSome then 1 else 0 := by
  induction steps with
  | nil => intro a; rfl
  | cons step later ih =>
      intro a
      cases step with
      | check c =>
          show ((a.check c).follow later).failed = _
          rw [ih, failed_check, TrialStep.performed, TrialStep.thrown?,
            Check.failures_cons c (TrialStep.performed later)]
          omega
      | throw text => rfl

theorem printed_follow (steps : List TrialStep) :
    ∀ a : Attempt, (a.follow steps).printed
      = a.printed ++ Check.notices (TrialStep.performed steps)
        ++ (TrialStep.thrown? steps).toList.map .thrown := by
  induction steps with
  | nil =>
      intro a
      show a.printed = a.printed ++ [] ++ []
      rw [List.append_nil, List.append_nil]
  | cons step later ih =>
      intro a
      cases step with
      | check c =>
          show ((a.check c).follow later).printed = _
          rw [ih, printed_check, TrialStep.performed, TrialStep.thrown?,
            Check.notices_cons c (TrialStep.performed later), List.append_assoc a.printed]
      | throw text =>
          show a.printed ++ [.thrown text] = a.printed ++ [] ++ [.thrown text]
          rw [List.append_nil]

/-- After each check the counters are right for the checks made so far. -/
theorem trace_eq (steps : List TrialStep) :
    ∀ a : Attempt, a.trace steps
      = (List.range (TrialStep.performed steps).length).map fun n =>
          (a.total + (n + 1),
            a.failed + Check.failures ((TrialStep.performed steps).take (n + 1))) := by
  induction steps with
  | nil => intro a; rfl
  | cons step later ih =>
      intro a
      cases step with
      | check c =>
          show ((a.check c).total, (a.check c).failed) :: (a.check c).trace later = _
          rw [ih, TrialStep.performed, List.length_cons, List.range_succ_eq_map, List.map_cons,
            List.map_map, total_check, failed_check]
          congr 1
          refine List.map_congr_left fun n _ => ?_
          show (a.total + 1 + (n + 1), _) = (a.total + (n + 1 + 1), _)
          rw [List.take_succ_cons, Check.failures_cons c (List.take _ _)]
          congr 1
          · omega
          · omega
      | throw text => rfl

theorem total_finish (a : Attempt) : a.finish.total = a.total := by
  unfold finish
  split <;> rfl

theorem failed_finish (a : Attempt) : a.finish.failed = a.failed := by
  unfold finish
  split <;> rfl

theorem printed_finish (a : Attempt) :
    a.finish.printed = a.printed ++ if a.failed = 0 then [.ok a.total] else [] := by
  unfold finish
  split
  · rfl
  · exact (List.append_nil _).symm

end Attempt

/-! ## §4. The whole trial. -/

namespace Trial

/-- What a trial reports: that it begins, the checks that do not hold, what
is thrown, and that it was good if it was. -/
def notices (t : Trial) : List Notice :=
  .begins t.name :: Check.notices t.checks ++ t.thrown?.toList.map .thrown
    ++ if t.Succeeds then [.ok t.checks.length] else []

theorem total_run (t : Trial) (printed : List Notice) :
    (t.run printed).total = t.checks.length := by
  unfold run
  rw [Attempt.total_finish, Attempt.total_follow]
  exact Nat.zero_add _

theorem failed_run (t : Trial) (printed : List Notice) :
    (t.run printed).failed
      = Check.failures t.checks + if t.thrown?.isSome then 1 else 0 := by
  unfold run
  rw [Attempt.failed_finish, Attempt.failed_follow]
  show 0 + Check.failures t.checks + _ = _
  rw [Nat.zero_add]
  rfl

/-- **Both ways to a failure are seen, and there is no other.** -/
theorem failed_run_eq_zero_iff (t : Trial) (printed : List Notice) :
    (t.run printed).failed = 0 ↔ t.Succeeds := by
  rw [failed_run, Nat.add_eq_zero_iff, Check.failures_eq_zero_iff]
  cases hthrown : t.thrown? with
  | none => simp [Succeeds, hthrown]
  | some text => simp [Succeeds, hthrown]

/-- **A trial only adds to the report**, and what it adds does not depend on
what was there. -/
theorem printed_run (t : Trial) (printed : List Notice) :
    (t.run printed).printed = printed ++ t.notices := by
  -- the last notice depends on counters that the end of the trial leaves alone
  have hfailed : ((Attempt.start printed t.name).follow t.steps).failed = 0 ↔ t.Succeeds := by
    rw [← Attempt.failed_finish]
    exact failed_run_eq_zero_iff t printed
  have htotal : ((Attempt.start printed t.name).follow t.steps).total = t.checks.length := by
    rw [← Attempt.total_finish]
    exact total_run t printed
  unfold run
  rw [Attempt.printed_finish, Attempt.printed_follow, Attempt.printed_start, htotal]
  simp only [hfailed, notices, checks, thrown?, List.append_assoc, List.cons_append,
    List.nil_append]

/-- The counters that can be seen during a trial: the checks made so far,
and how many of these did not hold. -/
theorem counts_eq (t : Trial) :
    t.counts = (List.range t.checks.length).map fun n =>
      (n + 1, Check.failures (t.checks.take (n + 1))) := by
  unfold counts
  rw [Attempt.trace_eq]
  refine List.map_congr_left fun n _ => ?_
  show (0 + (n + 1), 0 + _) = _
  rw [Nat.zero_add, Nat.zero_add]
  rfl

end Trial

end PresenceTable
