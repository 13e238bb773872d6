/-
  PresenceTable.Proofs.CommandLine.Presentation
  ─────────────────────────────────────────────
  **WHAT IS SHOWN IS ALL THAT TWO FLAGS CHANGE.**

  The flag that keeps warnings from view and the flag that asks for numbers
  change what a run writes to its error output, and nothing else.  Either
  may be put anywhere on a command line where it is a flag: not behind the
  name of an option, which would take it as its value.

  The error output of a run is made of two parts,

      what it reports on the lines of its listing  |  what it ends with,

  and each flag has its effect on one of them.  `Outcome` is what both runs
  have in common: a run with and without the flag is the same outcome, shown
  in two ways.

  Main results:
    * `Conversion.exists_statsLine` — the numbers stand on one line;
    * `Options.ofWords_insert` — a flag more on a command line;
    * `exists_outcome` — a run, apart from what is shown of it;
    * `flags_only_present` — a run with one of the flags put in.
-/
import PresenceTable.Proofs.CommandLine.Items
import PresenceTable.Proofs.CommandLine.Run
import PresenceTable.Proofs.Resumption
import PresenceTable.Proofs.Safety

namespace PresenceTable

/-! ## §1. What is shown. -/

namespace Diagnostic

/-- The lines of these diagnostics. -/
def texts (ds : List Diagnostic) : Bytes := ds.flatMap fun d => d.text ++ "\n"

/-- These diagnostics without the warnings, in their order. -/
def withoutWarnings (ds : List Diagnostic) : List Diagnostic :=
  ds.filter (·.severity ≠ .warning)

theorem shownAll_eq (ds : List Diagnostic) (quiet : Bool) :
    shownAll ds (!quiet) = texts (if quiet then withoutWarnings ds else ds) := by
  unfold shownAll texts withoutWarnings
  cases quiet with
  | false => simp [shown]
  | true =>
      induction ds with
      | nil => rfl
      | cons d ds ih =>
          rw [List.flatMap_cons, ih]
          cases hseverity : d.severity <;> simp [shown, hseverity]

end Diagnostic

theorem Bytes.newline_not_mem_decimal (n : Nat) : '\n'.toUInt8 ∉ Bytes.decimal n := by
  intro hmem
  obtain ⟨c, hc, hnewline⟩ := List.mem_map.1 hmem
  have hdigit := Nat.isDigit_of_mem_toDigits (by decide) (by decide) hc
  rw [Char.isDigit, Bool.and_eq_true, decide_eq_true_iff, decide_eq_true_iff] at hdigit
  have hlow : 48 ≤ c.val.toNat := UInt32.le_iff_toNat_le.1 hdigit.1
  have hhigh : c.val.toNat ≤ 57 := UInt32.le_iff_toNat_le.1 hdigit.2
  have hten : c.val.toNat % 256 = 10 := by
    rw [← UInt32.toNat_toUInt8]
    exact congrArg UInt8.toNat hnewline
  omega

/-- **The numbers stand on one line.** -/
theorem Conversion.exists_statsLine (c : Conversion) :
    ∃ line : Bytes, '\n'.toUInt8 ∉ line ∧ Tool.statsLine c = line ++ "\n" := by
  refine ⟨_, ?_, rfl⟩
  unfold Stats.text
  simp only [List.mem_append, not_or, Bytes.newline_not_mem_decimal, not_false_eq_true, and_true]
  decide

/-! ## §2. One flag more. -/

/-- The words end in the name of an option, which takes the word behind them
as its value.  In front of it are items, and not two inputs: reading has come
as far as that name. -/
def AwaitsValue (words : List Bytes) : Prop :=
  ∃ (items : List Item) (option : FileOption) (short : Bool),
    OneInput items ∧ words = rendered items ++ [option.spelling short]

namespace Options

/-- The command line is accepted, and it sets the flag. -/
def given (words : List Bytes) (f : Flag) : Bool :=
  match ofWords words with
  | .ok o => o.isSet f
  | .error _ => false

/-- What items come to in front of other words. -/
theorem readWords_rendered_eq (items : List Item) (later : List Bytes) :
    readWords {} (rendered items ++ later)
      = if OneInput items then (asked items).readWords later else .error .secondInput := by
  rw [readWords_rendered, foldlM_takeItem]
  split <;> rfl

theorem readWords_valueless (o : Options) (option : FileOption) (short : Bool) :
    o.readWords [option.spelling short] = .error (.missingFile (option.spelling short)) := by
  rw [readWords, Word.ofText_option]

theorem awaitsValue_iff {words : List Bytes} :
    AwaitsValue words ↔ ∃ name, readWords {} words = .error (.missingFile name) := by
  constructor
  · rintro ⟨items, option, short, hitems, rfl⟩
    rw [readWords_rendered_eq, if_pos hitems, readWords_valueless]
    exact ⟨_, rfl⟩
  · rintro ⟨name, hname⟩
    obtain ⟨items, later, rfl, hlater⟩ := exists_rendered_or_stuck words
    rw [readWords_rendered_eq] at hname
    split at hname
    · next hitems =>
      rcases hlater with rfl | hstuck
      · cases hname
      · cases hstuck with
        | unnamed h later =>
            rw [readWords, Word.ofText_of_unnamed h] at hname
            cases hname
        | valueless option short => exact ⟨items, option, short, hitems, rfl⟩
    · cases hname

instance (words : List Bytes) : Decidable (AwaitsValue words) :=
  match h : readWords {} words with
  | .error (.missingFile name) => isTrue (awaitsValue_iff.2 ⟨name, h⟩)
  | .error (.unknownOption _) | .error .secondInput | .error .noInput | .ok _ =>
    isFalse fun hawaits => by
      obtain ⟨name, hname⟩ := awaitsValue_iff.1 hawaits
      cases h.symm.trans hname

/-- **Words that await no value** are read before the words behind them. -/
theorem exists_readWords_append {before : List Bytes} (h : ¬ AwaitsValue before) :
    ∃ start : Except OptionsError Options, ∀ later : List Bytes,
      readWords {} (before ++ later) = start >>= fun o => o.readWords later := by
  obtain ⟨items, rest, rfl, hrest⟩ := exists_rendered_or_stuck before
  by_cases hitems : OneInput items
  · rcases hrest with rfl | hstuck
    · refine ⟨.ok (asked items), fun later => ?_⟩
      rw [List.append_nil, readWords_rendered_eq, if_pos hitems]
      rfl
    · cases hstuck with
      | @unnamed word hword rest =>
          -- nothing behind an unknown word is looked at
          refine ⟨.error (.unknownOption word), fun later => ?_⟩
          rw [List.append_assoc, readWords_rendered_eq, if_pos hitems, List.cons_append, readWords,
            Word.ofText_of_unnamed hword]
          rfl
      | valueless option short => exact absurd ⟨items, option, short, hitems, rfl⟩ h
  · refine ⟨.error .secondInput, fun later => ?_⟩
    rw [List.append_assoc, readWords_rendered_eq, if_neg hitems]
    rfl

theorem setFlag_setFlag (o : Options) (f g : Flag) :
    (o.setFlag f).setFlag g = (o.setFlag g).setFlag f := by
  cases f <;> cases g <;> rfl

theorem setFile_setFlag (o : Options) (f : Flag) (path : Bytes) (option : FileOption) :
    (o.setFlag f).setFile path option = (o.setFile path option).setFlag f := by
  cases f <;> cases option <;> rfl

theorem input_setFlag (o : Options) (f : Flag) : (o.setFlag f).input = o.input := by
  cases f <;> rfl

/-- A flag may be set before or after the words are read. -/
theorem readWords_setFlag (f : Flag) (o : Options) (words : List Bytes) :
    (o.setFlag f).readWords words = (o.readWords words).map (·.setFlag f) := by
  fun_induction readWords o words with
  | case1 o => rfl
  | case2 o text later g hword ih =>
      rw [readWords, hword]
      dsimp only
      rw [setFlag_setFlag, ih]
  | case4 o text option hword path later ih =>
      rw [readWords, hword]
      dsimp only
      rw [setFile_setFlag, ih]
  | case3 o text option hword | case5 o text later hword =>
      rw [readWords, hword]
      rfl
  | case6 o text later hword hinput =>
      rw [readWords, hword]
      dsimp only
      rw [input_setFlag, if_pos hinput]
      rfl
  | case7 o text later hword hinput ih =>
      rw [readWords, hword]
      dsimp only
      rw [input_setFlag, if_neg hinput, ← ih]
      cases f <;> rfl

/-- **A flag more on a command line.**  It may stand wherever no value is
awaited, and it changes nothing but what it is for. -/
theorem ofWords_insert {before : List Bytes} (h : ¬ AwaitsValue before) (after : List Bytes)
    {f : Flag} (hf : ∀ o : Options, (o.setFlag f).isComplete = o.isComplete) (short : Bool) :
    ofWords (before ++ f.spelling short :: after)
      = (ofWords (before ++ after)).map (·.setFlag f) := by
  obtain ⟨start, hstart⟩ := exists_readWords_append h
  unfold ofWords
  rw [hstart, hstart]
  cases start with
  | error error => rfl
  | ok o =>
      show o.readWords (f.spelling short :: after) >>= _ = ((o.readWords after >>= _).map _)
      rw [readWords, Word.ofText_flag]
      dsimp only
      rw [readWords_setFlag]
      cases o.readWords after with
      | error error => rfl
      | ok o =>
          show (if (o.setFlag f).isComplete then _ else _)
            = Except.map _ (if o.isComplete then _ else _)
          rw [hf]
          split <;> rfl

theorem given_selftest_eq_false_iff {words : List Bytes} :
    given words .selftest = false ↔ ∀ o, ofWords words = .ok o → o.selftest = false := by
  unfold given
  cases ofWords words <;> simp [isSet]

/-- The same options, but for what is shown. -/
def showing (o : Options) (quiet showStats : Bool) : Options := { o with quiet, showStats }

@[simp] theorem output_showing (o : Options) (quiet showStats : Bool) :
    (o.showing quiet showStats).output = o.output := rfl

theorem ofWords_eq_map_showing (words : List Bytes) :
    ofWords words = (ofWords words).map (·.showing (given words .quiet) (given words .stats)) := by
  unfold given
  cases ofWords words <;> rfl

theorem map_setFlag_quiet (words : List Bytes) :
    (ofWords words).map (·.setFlag .quiet)
      = (ofWords words).map (·.showing true (given words .stats)) := by
  unfold given
  cases ofWords words <;> rfl

theorem map_setFlag_stats (words : List Bytes) :
    (ofWords words).map (·.setFlag .stats)
      = (ofWords words).map (·.showing (given words .quiet) true) := by
  unfold given
  cases ofWords words <;> rfl

end Options

/-! ## §3. A run, apart from what is shown of it. -/

namespace TreeAccess

variable {files : TreeAccess} {tree : FileTree}

/-- What is reported on the listing that the options name, if it comes to
that. -/
def reportedOn (files : TreeAccess) (tree : FileTree) (o : Options) : List Diagnostic :=
  match files.typesAt tree o.types with
  | .error _ => []
  | .ok types =>
    match files.read? tree o.input with
    | none => []
    | some input => (Conversion.start.listing types.erases input).2.diagnostics.toList

/-- What a run reports on the lines of its listing, shown or not. -/
def reported (files : TreeAccess) (tree : FileTree) (words : List Bytes) : List Diagnostic :=
  match Options.ofWords words with
  | .error _ => []
  | .ok o => if o.help then [] else files.reportedOn tree o

theorem reported_of_ok {words : List Bytes} {o : Options} (ho : Options.ofWords words = .ok o) :
    files.reported tree words = if o.help then [] else files.reportedOn tree o := by
  unfold reported
  rw [ho]

/-- What a run comes to. -/
structure Outcome where
  success : Bool
  stdout : Bytes
  /-- What follows the diagnostics, without and with the numbers. -/
  closing : Bool → Bytes
  left : FileTree

/-- The outcome as it is shown. -/
def Outcome.shown (r : Outcome) (ds : List Diagnostic) (quiet showStats : Bool) :
    Report × FileTree :=
  ({ success := r.success
     stdout := r.stdout
     stderr := Diagnostic.shownAll ds (!quiet) ++ r.closing showStats }, r.left)

theorem Outcome.shown_nil (r : Outcome) (quiet showStats : Bool) :
    r.shown [] quiet showStats
      = ({ success := r.success, stdout := r.stdout, stderr := r.closing showStats }, r.left) :=
  rfl

/-- The numbers are one more line, unless the run stops. -/
structure Outcome.Closes (r : Outcome) (stops : Prop) : Prop where
  of_stops : stops → r.closing true = r.closing false
  of_not_stops : ¬ stops → ∃ line : Bytes, '\n'.toUInt8 ∉ line
    ∧ r.closing true = r.closing false ++ (line ++ "\n")

/-- A run that reports these diagnostics is one outcome, shown in as many
ways as the two flags leave. -/
def Presents (stops : Prop) (ds : List Diagnostic) (run : Bool → Bool → Report × FileTree) :
    Prop :=
  ∃ r : Outcome, r.Closes stops
    ∧ ∀ quiet showStats, run quiet showStats = r.shown ds quiet showStats

/-- A run that stops ends with its reason in any case. -/
theorem presents_of_stops (tree : FileTree) {stops : Prop} (hstops : stops) {ds : List Diagnostic}
    (error : RunError) {run : Bool → Bool → Report × FileTree}
    (hrun : ∀ quiet showStats, run quiet showStats
      = (error.report (Diagnostic.shownAll ds (!quiet)), tree)) :
    Presents stops ds run :=
  ⟨⟨false, [], fun _ => errorLine error.message, tree⟩,
    ⟨fun _ => rfl, fun hnot => absurd hstops hnot⟩, hrun⟩

/-- A run that writes its table ends with the numbers, or with nothing. -/
theorem presents_finished {stops : Prop} (hstops : ¬ stops) {o : Options} (c : Conversion)
    (stdout : Bytes) (left : FileTree) {run : Bool → Bool → Report × FileTree}
    (hrun : ∀ quiet showStats, run quiet showStats
      = (Tool.finished (o.showing quiet showStats) c stdout, left)) :
    Presents stops c.diagnostics.toList run := by
  refine ⟨⟨c.errors = 0, stdout, fun showStats => if showStats then Tool.statsLine c else [], left⟩,
    ⟨fun h => absurd h hstops, fun _ => ?_⟩, hrun⟩
  obtain ⟨line, hline, heq⟩ := c.exists_statsLine
  exact ⟨line, hline, heq⟩

/-- Only its output can keep a finished conversion from its table. -/
theorem presents_deliver {stops : Prop} {c : Conversion} (hc : c.RecordsNodes) {o : Options}
    (hstops : stops ↔ o.output ≠ [] ∧ files.place? tree o.output = none) :
    Presents stops c.diagnostics.toList fun quiet showStats =>
      (Tool.deliver files.access (o.showing quiet showStats) c).run tree := by
  obtain ⟨table, htable⟩ := hc.exists_write
  have hrun (quiet showStats : Bool) :=
    @run_deliver files tree (o.showing quiet showStats) c table htable
  by_cases hpath : o.output = []
  · have hopen : ¬ stops := fun h => (hstops.1 h).1 hpath
    simp only [Options.output_showing, hpath, ↓reduceIte] at hrun
    exact presents_finished hopen c table tree hrun
  · simp only [Options.output_showing, hpath, ↓reduceIte] at hrun
    cases hplace : files.place? tree o.output with
    | some place =>
        have hopen : ¬ stops := fun h => by cases hplace.symm.trans (hstops.1 h).2
        rw [hplace] at hrun
        exact presents_finished hopen c [] (tree.write place table) hrun
    | none =>
        rw [hplace] at hrun
        exact presents_of_stops tree (hstops.2 ⟨hpath, hplace⟩) (.cannotOpen o.output) hrun

/-- **A conversion is one outcome**, also when it can not be done. -/
theorem presents_convert {commandLine : List Bytes} {o : Options}
    (ho : Options.ofWords commandLine.tail = .ok o) (hhelp : o.help = false) :
    Presents (files.Stops tree commandLine) (files.reportedOn tree o) fun quiet showStats =>
      (Tool.convert files.access (o.showing quiet showStats)).run tree := by
  have hmissing : (∀ types text, files.typesAt tree o.types = .ok types →
      files.read? tree o.input ≠ some ⟨text, false⟩) → files.Stops tree commandLine := by
    intro hnone
    apply stops_of_not_reads
    rintro ⟨o', types, text, ho', -, htypes, hinput⟩
    cases ho.symm.trans ho'
    exact hnone types text (typesAt_eq_ok_iff.2 htypes) hinput
  unfold reportedOn
  simp only [run_convert, Options.showing]
  cases htypes : files.typesAt tree o.types with
  | error error =>
      refine presents_of_stops tree (hmissing fun _ _ h => ?_) error fun _ _ => rfl
      cases htypes.symm.trans h
  | ok types =>
      cases hinput : files.read? tree o.input with
      | none =>
          refine presents_of_stops tree (hmissing fun _ _ _ h => ?_) (.cannotOpen o.input)
            fun _ _ => rfl
          cases hinput.symm.trans h
      | some input =>
          have hanswer := Conversion.listing_eq Conversion.recordsNodes_start.navigable types.erases
            input
          have hc := Conversion.recordsNodes_start.lines types.erases (numbered 1 input.lines)
          dsimp only
          rw [hanswer]
          obtain ⟨text, interrupted⟩ := input
          cases interrupted with
          | true =>
              -- what was read is reported on, but it is not all
              refine presents_of_stops tree (hmissing fun _ _ _ h => ?_)
                (.listing o.input (.interrupted (Input.lineCount ⟨text, true⟩))) fun _ _ => rfl
              cases hinput.symm.trans h
          | false =>
              have hreads : files.Reads tree commandLine o types text :=
                ⟨ho, hhelp, typesAt_eq_ok_iff.1 htypes, hinput⟩
              exact presents_deliver hc hreads.stops_iff

/-- **A run is one outcome**, shown in as many ways as there are command lines
that differ in the two flags only. -/
theorem exists_outcome (program : Bytes) {words : List Bytes}
    (hselftest : ∀ o, Options.ofWords words = .ok o → o.selftest = false) :
    ∃ r : Outcome, r.Closes (files.Stops tree (program :: words))
      ∧ ∀ (quiet showStats : Bool) (words' : List Bytes),
          Options.ofWords words'
              = (Options.ofWords words).map (·.showing quiet showStats) →
          (Tool.run files.access (program :: words')).run tree
            = r.shown (files.reported tree words) quiet showStats := by
  cases ho : Options.ofWords words with
  | error error =>
      refine ⟨⟨false, [], fun _ => errorLine error.message ++ usage program, tree⟩,
        ⟨fun _ => rfl, fun h => absurd (.refused ho) h⟩, fun quiet showStats words' hwords => ?_⟩
      unfold Tool.run reported
      rw [ho, List.tail_cons, hwords, Outcome.shown_nil]
      rfl
  | ok o =>
      cases hhelp : o.help with
      | true =>
          refine ⟨⟨true, [], fun _ => usage program, tree⟩,
            ⟨fun _ => rfl, fun h => absurd (.help ho hhelp) h⟩,
            fun quiet showStats words' hwords => ?_⟩
          unfold Tool.run
          rw [List.tail_cons, hwords, reported_of_ok ho]
          dsimp only [Except.map, Options.showing]
          rw [if_pos hhelp, if_pos hhelp, Outcome.shown_nil]
          rfl
      | false =>
          obtain ⟨r, hcloses, hrun⟩ :=
            @presents_convert files tree (program :: words) o ho hhelp
          refine ⟨r, hcloses, fun quiet showStats words' hwords => ?_⟩
          have hselftest' : ∀ o', Options.ofWords words' = .ok o' → o'.selftest = false := by
            intro o' ho'
            cases hwords.symm.trans ho'
            exact hselftest o ho
          have hconvert : (Tool.run files.access (program :: words')).run tree
              = (Tool.convert files.access (o.showing quiet showStats)).run tree :=
            @run_of_ofWords files tree (program :: words') hselftest' _ hwords hhelp
          rw [hconvert, reported_of_ok ho, hhelp, if_neg Bool.false_ne_true]
          exact hrun quiet showStats

/-- **The two flags change what is shown, and nothing else.**  One of them is
put where no value is awaited, on a command line that asks for no self test.
With the one for quiet the run succeeds or fails as it did, prints the same
and leaves the same files, and its error output is the same without the lines
of the warnings.  With the one for numbers, if it was not there yet, all of
this is as it was too, and the error output is one line longer, unless the run
stops before its table is written. -/
theorem flags_only_present (files : TreeAccess) (tree : FileTree) (program : Bytes)
    {before after : List Bytes} (hposition : ¬ AwaitsValue before)
    (hselftest : Options.given (before ++ after) .selftest = false)
    {report : Report} {left : FileTree}
    (hrun : (Tool.run files.access (program :: (before ++ after))).run tree = (report, left)) :
    (∃ closing : Bytes,
        report.stderr
          = Diagnostic.texts
              (if Options.given (before ++ after) .quiet then
                Diagnostic.withoutWarnings (files.reported tree (before ++ after))
              else files.reported tree (before ++ after)) ++ closing
        ∧ ∀ short : Bool,
            (Tool.run files.access
                (program :: (before ++ Flag.quiet.spelling short :: after))).run tree
              = ({ report with
                    stderr := Diagnostic.texts
                      (Diagnostic.withoutWarnings (files.reported tree (before ++ after)))
                        ++ closing }, left))
    ∧ (Options.given (before ++ after) .stats = false → ∀ short : Bool,
        (files.Stops tree (program :: (before ++ after)) →
          (Tool.run files.access
              (program :: (before ++ Flag.stats.spelling short :: after))).run tree
            = (report, left))
        ∧ (¬ files.Stops tree (program :: (before ++ after)) →
            ∃ line : Bytes, '\n'.toUInt8 ∉ line
              ∧ (Tool.run files.access
                    (program :: (before ++ Flag.stats.spelling short :: after))).run tree
                  = ({ report with stderr := report.stderr ++ (line ++ "\n") }, left))) := by
  -- all three runs are one outcome
  obtain ⟨r, hcloses, hshown⟩ := @exists_outcome files tree program (before ++ after)
    (Options.given_selftest_eq_false_iff.1 hselftest)
  have hsame := hshown _ _ (before ++ after) (Options.ofWords_eq_map_showing (before ++ after))
  cases hrun.symm.trans hsame
  refine ⟨⟨r.closing (Options.given (before ++ after) .stats), ?_, fun short => ?_⟩, ?_⟩
  · show Diagnostic.shownAll _ _ ++ _ = _
    rw [Diagnostic.shownAll_eq]
  · have hinserted := Options.ofWords_insert hposition after (f := .quiet) (fun _ => rfl) short
    rw [hshown _ _ _ (hinserted.trans (Options.map_setFlag_quiet _))]
    unfold Outcome.shown
    rw [Diagnostic.shownAll_eq]
    rfl
  · intro hstats short
    have hinserted := Options.ofWords_insert hposition after (f := .stats) (fun _ => rfl) short
    rw [hshown _ _ _ (hinserted.trans (Options.map_setFlag_stats _)), hstats]
    unfold Outcome.shown
    refine ⟨fun hstops => ?_, fun hopen => ?_⟩
    · rw [hcloses.of_stops hstops]
    · obtain ⟨line, hline, hclosing⟩ := hcloses.of_not_stops hopen
      refine ⟨line, hline, ?_⟩
      rw [hclosing, List.append_assoc]

/-- A table of types under a path that looks like the flag, which is put in
right behind it, and a listing outside the working directory.  One line of it
is only warned of, and another one is no line. -/
theorem flags_only_present_behind_value :
    ∃ (tree left : FileTree) (report : Report),
      (Tool.run FileTree.access ["pc", "-t", "-q", "/list"]).run tree = (report, left)
        ∧ report.stdout = "a.c;false\nb.c;X\n"
        ∧ report.stderr
            = "a.c:1: WARNING: presence condition for file a.c in line 1 is invalid\n"
              ++ "no file:2: ERROR: malformed line, expected '<file>: <condition>'\n"
        ∧ (Tool.run FileTree.access ["pc", "-t", "-q", "-q", "/list"]).run tree
            = ({ report with
                  stderr := "no file:2: ERROR: malformed line, expected '<file>: <condition>'\n" },
                left)
        ∧ ∃ line : Bytes, '\n'.toUInt8 ∉ line
            ∧ (Tool.run FileTree.access ["pc", "-t", "-q", "--stats", "/list"]).run tree
                = ({ report with stderr := report.stderr ++ (line ++ "\n") }, left) := by
  obtain ⟨tree, htree⟩ : ∃ tree, tree
      = ((FileTree.workingIn ["work"]).withFile "-q" "X bool\n").withFile "/list"
          "a.c: A && InvalidExpression()\nno file\nb.c: X || X_MODULE\n" := ⟨_, rfl⟩
  have hstdout : ((Tool.run FileTree.access ["pc", "-t", "-q", "/list"]).run tree).1.stdout
      = "a.c;false\nb.c;X\n" := by
    rw [htree]
    decide +kernel
  have hstderr : ((Tool.run FileTree.access ["pc", "-t", "-q", "/list"]).run tree).1.stderr
      = Diagnostic.texts (plain.reported tree ["-t", "-q", "/list"]) ++ [] := by
    rw [htree]
    decide +kernel
  have hall : Diagnostic.texts (plain.reported tree ["-t", "-q", "/list"])
      = "a.c:1: WARNING: presence condition for file a.c in line 1 is invalid\n"
        ++ "no file:2: ERROR: malformed line, expected '<file>: <condition>'\n" := by
    rw [htree]
    decide +kernel
  have hgrave : Diagnostic.texts
        (Diagnostic.withoutWarnings (plain.reported tree ["-t", "-q", "/list"]))
      = "no file:2: ERROR: malformed line, expected '<file>: <condition>'\n" := by
    rw [htree]
    decide +kernel
  have hopen : ¬ plain.Stops tree ["pc", "-t", "-q", "/list"] := by
    have hreads : plain.Reads tree ["pc", "-t", "-q", "/list"]
        { input := "/list", types := "-q" } (TypeTable.empty.declare "X" "bool")
        "a.c: A && InvalidExpression()\nno file\nb.c: X || X_MODULE\n" := by
      refine ⟨by decide +kernel, rfl, .inr ⟨by decide, ⟨"X bool\n", false⟩, ?_, rfl⟩, ?_⟩
      · rw [htree]
        decide +kernel
      · rw [htree]
        decide +kernel
    rw [hreads.stops_iff]
    exact fun hclosed => hclosed.1 rfl
  have hposition : ¬ AwaitsValue (["-t", "-q"] : List Bytes) := by decide +kernel
  have hselftest :
      Options.given (["-t", "-q"] ++ ["/list"] : List Bytes) .selftest = false := by
    decide +kernel
  obtain ⟨⟨closing, hreport, hquiet⟩, hstats⟩ :=
    flags_only_present plain tree "pc" hposition hselftest (Prod.eta _).symm
  obtain ⟨line, hline, hstats⟩ := (hstats (by decide +kernel) false).2 hopen
  have hquiet := hquiet true
  rw [access_plain] at hreport hquiet hstats
  have hclosing : closing = [] := List.append_cancel_left (hreport.symm.trans hstderr)
  subst hclosing
  refine ⟨tree, _, _, (Prod.eta _).symm, hstdout, ?_, ?_, line, hline, hstats⟩
  · rw [hstderr, List.append_nil, hall]
  · rw [← hgrave]
    exact hquiet.trans (by rw [List.append_nil]; rfl)

end TreeAccess

end PresenceTable
