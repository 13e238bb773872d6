/-
  PresenceTable.Proofs.CommandLine.Status
  ───────────────────────────────────────
  **THE EXIT STATUS.**

  A run succeeds when its command line is accepted and it either has only
  help to give, or finds all its files, and each line of its listing is
  acceptable.  What is merely shown does not count: neither warnings nor the
  choice to hide them or to show numbers.

  Main results:
    * `success_iff_of_reads` — a run that can read its files, by its output
      and its lines;
    * `exitStatus_eq_zero_iff` — the status of any run.
-/
import PresenceTable.Proofs.Acceptance
import PresenceTable.Proofs.CommandLine.Run

namespace PresenceTable

theorem Report.exitStatus_eq_zero_iff_success (r : Report) :
    r.exitStatus = 0 ↔ r.success = true := by
  unfold exitStatus
  cases r.success <;> decide

theorem Report.exitStatus_eq_or (r : Report) : r.exitStatus = 0 ∨ r.exitStatus = 1 := by
  unfold exitStatus
  cases r.success <;> decide

namespace TreeAccess

variable {files : TreeAccess} {tree : FileTree} {commandLine : List Bytes}

/-- A listing that was read to its end is converted without an error when
its lines are acceptable. -/
theorem errors_converted_eq_zero_iff (types : TypeTable) (text : Bytes) :
    (converted types text).errors = 0
      ↔ ∀ line ∈ Input.lines ⟨text, false⟩, ListingLine.Acceptable line := by
  have hstart : Conversion.start.store.Navigable := Store.wellFormed_empty.navigable
  unfold converted
  rw [Conversion.errors_listing_eq_zero_iff hstart]
  exact and_iff_right rfl

/-- What these options ask for is found, and nothing in it is an error.  An
empty path asks for nothing. -/
def Completes (files : TreeAccess) (tree : FileTree) (o : Options) : Prop :=
  o.help = true
    ∨ ((o.types ≠ [] → ∃ input types, files.read? tree o.types = some input
          ∧ TypeTable.read input = .ok types)
        ∧ ∃ text, files.read? tree o.input = some ⟨text, false⟩
          ∧ (o.output ≠ [] → ∃ place, files.place? tree o.output = some place)
          ∧ ∀ line ∈ Input.lines ⟨text, false⟩, ListingLine.Acceptable line)

/-- Options that are completed without help have what they read. -/
theorem Completes.reads {o : Options} (h : files.Completes tree o)
    (ho : Options.ofWords commandLine.tail = .ok o) (hhelp : o.help = false) :
    ∃ types text, files.Reads tree commandLine o types text := by
  rcases h with h | ⟨htypes, text, hinput, -⟩
  · cases hhelp.symm.trans h
  · by_cases hpath : o.types = []
    · exact ⟨.empty, text, ho, hhelp, .inl ⟨hpath, rfl⟩, hinput⟩
    · obtain ⟨input, types, hread, htable⟩ := htypes hpath
      exact ⟨types, text, ho, hhelp, .inr ⟨hpath, input, hread, htable⟩, hinput⟩

/-- What is read already is no hindrance. -/
theorem Reads.completes_iff {o : Options} {types : TypeTable} {text : Bytes}
    (h : files.Reads tree commandLine o types text) :
    files.Completes tree o
      ↔ (o.output ≠ [] → ∃ place, files.place? tree o.output = some place)
        ∧ ∀ line ∈ Input.lines ⟨text, false⟩, ListingLine.Acceptable line := by
  obtain ⟨-, hhelp, htypes, hinput⟩ := h
  constructor
  · rintro (hhelp' | ⟨-, text', hinput', hcompletes⟩)
    · cases hhelp.symm.trans hhelp'
    · cases hinput.symm.trans hinput'
      exact hcompletes
  · intro hcompletes
    refine .inr ⟨fun hpath => ?_, text, hinput, hcompletes⟩
    rcases htypes with ⟨hnone, -⟩ | ⟨-, input, hread, htable⟩
    · exact absurd hnone hpath
    · exact ⟨input, types, hread, htable⟩

section

variable (hselftest : ∀ o, Options.ofWords commandLine.tail = .ok o → o.selftest = false)
  (hbytes : ∀ o input, Options.ofWords commandLine.tail = .ok o →
    files.read? tree o.input = some input → input.text.length < UInt32.size - 2)

include hselftest hbytes

/-- **A run that can read what it needs** succeeds when its output can be
opened and its lines are acceptable. -/
theorem success_iff_of_reads {o : Options} {types : TypeTable} {text : Bytes}
    (h : files.Reads tree commandLine o types text) :
    ((Tool.run files.access commandLine).run tree).1.success = true
      ↔ (o.output ≠ [] → ∃ place, files.place? tree o.output = some place)
        ∧ ∀ line ∈ Input.lines ⟨text, false⟩, ListingLine.Acceptable line := by
  have hfinished : ∀ stdout, (Tool.finished o (converted types text) stdout).success = true
      ↔ ∀ line ∈ Input.lines ⟨text, false⟩, ListingLine.Acceptable line := by
    intro stdout
    rw [← errors_converted_eq_zero_iff types text]
    exact decide_eq_true_iff
  rw [run_of_reads hselftest hbytes h]
  by_cases hpath : o.output = []
  · rw [if_pos hpath, hfinished]
    exact ⟨fun hlines => ⟨fun hne => absurd hpath hne, hlines⟩, And.right⟩
  · rw [if_neg hpath]
    cases hplace : files.place? tree o.output with
    | some place =>
        dsimp only
        rw [hfinished]
        exact ⟨fun hlines => ⟨fun _ => ⟨place, rfl⟩, hlines⟩, And.right⟩
    | none =>
        refine ⟨nofun, fun hopen => ?_⟩
        obtain ⟨place, hplace'⟩ := hopen.1 hpath
        cases hplace'

/-- A run succeeds when what its options ask for is completed. -/
theorem success_iff :
    ((Tool.run files.access commandLine).run tree).1.success = true
      ↔ ∃ o, Options.ofWords commandLine.tail = .ok o ∧ files.Completes tree o := by
  by_cases hreads : ∃ o types text, files.Reads tree commandLine o types text
  · obtain ⟨o, types, text, h⟩ := hreads
    rw [success_iff_of_reads hselftest hbytes h, ← h.completes_iff]
    constructor
    · intro hcompletes
      exact ⟨o, h.ofWords, hcompletes⟩
    · rintro ⟨o', ho', hcompletes⟩
      cases h.ofWords.symm.trans ho'
      exact hcompletes
  · rw [(run_of_not_reads hselftest hbytes hreads).2.2]
    constructor
    · rintro ⟨o, ho, hhelp⟩
      exact ⟨o, ho, .inl hhelp⟩
    · rintro ⟨o, ho, hcompletes⟩
      refine ⟨o, ho, ?_⟩
      -- without help, what is completed would have been read
      by_contra hhelp
      rw [Bool.not_eq_true] at hhelp
      exact hreads ⟨o, hcompletes.reads ho hhelp⟩

end

/-- **The exit status.**  It is 0 when the command line is accepted, and
help is asked for or everything that it asks for is completed without an
error; in every other case it is 1.  Options that differ only in what is
shown give the same status. -/
theorem exitStatus_eq_zero_iff (files : TreeAccess) (tree : FileTree) (commandLine : List Bytes)
    (hselftest : ∀ o, Options.ofWords commandLine.tail = .ok o → o.selftest = false)
    (hbytes : ∀ o input, Options.ofWords commandLine.tail = .ok o →
      files.read? tree o.input = some input → input.text.length < UInt32.size - 2)
    {report : Report} {after : FileTree}
    (hrun : (Tool.run files.access commandLine).run tree = (report, after)) :
    (report.exitStatus = 0
        ↔ ∃ o, Options.ofWords commandLine.tail = .ok o ∧ files.Completes tree o)
      ∧ (report.exitStatus = 0 ∨ report.exitStatus = 1)
      ∧ ∀ (o : Options) (other : List Bytes) (quiet showStats : Bool),
          Options.ofWords commandLine.tail = .ok o →
          Options.ofWords other.tail = .ok { o with quiet, showStats } →
          ((Tool.run files.access other).run tree).1.exitStatus = report.exitStatus := by
  have hsuccess := success_iff hselftest hbytes
  rw [hrun] at hsuccess
  refine ⟨report.exitStatus_eq_zero_iff_success.trans hsuccess, report.exitStatus_eq_or, ?_⟩
  intro o other quiet showStats ho hother
  have hother_iff : ((Tool.run files.access other).run tree).1.success = true
      ↔ ∃ o', Options.ofWords other.tail = .ok o' ∧ files.Completes tree o' := by
    apply success_iff
    · intro o' ho'
      cases hother.symm.trans ho'
      exact hselftest o ho
    · intro o' input ho' hread
      cases hother.symm.trans ho'
      exact hbytes o input ho hread
  -- what is shown plays no part in the completion of the options
  have hsame : ((Tool.run files.access other).run tree).1.success = report.success := by
    rw [Bool.eq_iff_iff, hother_iff, hsuccess]
    constructor
    · rintro ⟨o', ho', hcompletes⟩
      cases hother.symm.trans ho'
      exact ⟨o, ho, hcompletes⟩
    · rintro ⟨o', ho', hcompletes⟩
      cases ho.symm.trans ho'
      exact ⟨_, hother, hcompletes⟩
  unfold Report.exitStatus
  rw [hsame]

/-- A listing under a path from the root with a condition that is marked as
invalid, which is only warned of, and an output above the working directory;
and the same run with other words on what is shown. -/
theorem exitStatus_eq_zero_iff_warned :
    ∃ (tree after : FileTree) (report : Report),
      (Tool.run FileTree.access ["pc", "/list", "-o", "../table"]).run tree = (report, after)
        ∧ report.exitStatus = 0
        ∧ (∀ line ∈ Input.lines ⟨"a.c: A && InvalidExpression()\n\nb.c: (B)\n", false⟩,
            ListingLine.Acceptable line)
        ∧ ((Tool.run FileTree.access ["pc", "-q", "/list", "--stats", "-o", "../table"]).run
            tree).1.exitStatus = report.exitStatus := by
  obtain ⟨tree, htree⟩ : ∃ tree, tree
      = (FileTree.workingIn ["work"]).withFile "/list"
          "a.c: A && InvalidExpression()\n\nb.c: (B)\n" := ⟨_, rfl⟩
  have hinput : tree.read? "/list"
      = some ⟨"a.c: A && InvalidExpression()\n\nb.c: (B)\n", false⟩ := by
    rw [htree]
    decide +kernel
  have hzero : ((Tool.run FileTree.access ["pc", "/list", "-o", "../table"]).run
      tree).1.exitStatus = 0 := by
    rw [htree]
    decide +kernel
  have ho : Options.ofWords ["/list", "-o", "../table"]
      = .ok { input := "/list", output := "../table" } := by decide +kernel
  have hrun := exitStatus_eq_zero_iff plain tree ["pc", "/list", "-o", "../table"]
    (fun o => Options.selftest_eq_false (by decide)) (by
      intro o input ho' hread
      cases ho.symm.trans ho'
      cases hinput.symm.trans hread
      decide) (Prod.eta _).symm
  rw [access_plain] at hrun
  obtain ⟨hstatus, -, hshown⟩ := hrun
  obtain ⟨o, ho', hcompletes⟩ := hstatus.1 hzero
  cases ho.symm.trans ho'
  refine ⟨tree, _, _, (Prod.eta _).symm, hzero, ?_, ?_⟩
  · rcases hcompletes with hhelp | ⟨-, text, hinput', -, hlines⟩
    · cases hhelp
    · cases hinput.symm.trans hinput'
      exact hlines
  · exact hshown _ ["pc", "-q", "/list", "--stats", "-o", "../table"] true true ho
      (by decide +kernel)

end TreeAccess

end PresenceTable
