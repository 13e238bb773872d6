/-
  PresenceTable.Proofs.CommandLine.Run
  ────────────────────────────────────
  **A RUN WRITES ITS TABLE, OR NOTHING.**

  A run reads everything before it writes anything.  So a run that stops
  early leaves all files as they were, also the one it was to write; and a
  run that does not stop writes the table of its listing to one place,
  whatever it had to report on the way.

  Paths may go through links, and opening and reading may fail for reasons
  that a file tree knows nothing of.  So a run is looked at with any way to
  reach the files of a tree, of which `FileTree.access` is one.

  Main results:
    * `holds_plain_iff` — what `FileTree.access` finds under a path;
    * `run_of_not_reads` — a run that can not read its files changes
      nothing;
    * `run_of_reads` — what is left to do for a run that can;
    * `run_changes_output_only` — what a run does to the files.
-/
import PresenceTable.CommandLine.Tool
import PresenceTable.Proofs.CommandLine.FileTree
import PresenceTable.Proofs.CommandLine.Options
import PresenceTable.Proofs.Table

namespace PresenceTable

/-! ## §1. Ways to reach files. -/

/-- A way to reach the files of a tree.  Where a path leads is left open, and
a file to which it leads may be out of reach, or its reading may break off.
But what is read to its end is what the file holds; what is written is put
where the path leads, and never over a directory; and the path leads there
still when it is written. -/
structure TreeAccess where
  /-- The place to which a path leads. -/
  resolve? : FileTree → Bytes → Option Place
  /-- What can be read under a path, if it can be opened. -/
  read? : FileTree → Bytes → Option Input
  /-- The place that is opened for writing under a path. -/
  place? : FileTree → Bytes → Option Place
  exists_place : ∀ {t : FileTree} {path text : Bytes}, read? t path = some ⟨text, false⟩ →
    ∃ place, resolve? t path = some place ∧ t.get? place = some (.file text)
  resolve?_place : ∀ {t : FileTree} {path : Bytes} {place : Place}, place? t path = some place →
    resolve? t path = some place ∧ t.get? place ≠ some .directory
  resolve?_write : ∀ {t : FileTree} {path : Bytes} {place : Place},
    resolve? t path = some place → t.get? place ≠ some .directory →
      ∀ contents, resolve? (t.write place contents) path = some place

namespace TreeAccess

/-- The files as a run reaches them. -/
def access (files : TreeAccess) : FileAccess (StateM FileTree) where
  read? path := do return files.read? (← get) path
  write path contents := do
    match files.place? (← get) path with
    | some place =>
      modify (·.write place contents)
      return true
    | none => return false

/-- The path leads to a file with this text. -/
def Holds (files : TreeAccess) (tree : FileTree) (path text : Bytes) : Prop :=
  ∃ place, files.resolve? tree path = some place ∧ tree.get? place = some (.file text)

/-- A path leads where following its components comes to, and whatever the
tree has is in reach. -/
def plain : TreeAccess where
  resolve? := FileTree.place?
  read? := FileTree.read?
  place? := FileTree.place?
  exists_place := by
    intro t path text h
    obtain ⟨place, hleads, hget⟩ := FileTree.read?_eq_some_iff.1 h
    exact ⟨place, FileTree.place?_eq_some_iff.2 hleads, hget⟩
  resolve?_place := by
    intro t path place h
    exact ⟨h, (FileTree.place?_eq_some_iff.1 h).get?_ne⟩
  resolve?_write := by
    intro t path place h hfile contents
    have hleads := FileTree.place?_eq_some_iff.1 h
    exact FileTree.place?_eq_some_iff.2 (hleads.write hfile contents)

theorem holds_plain_iff {tree : FileTree} {path text : Bytes} :
    plain.Holds tree path text ↔ tree.read? path = some ⟨text, false⟩ := by
  unfold Holds
  rw [FileTree.read?_eq_some_iff]
  exact exists_congr fun place => and_congr_left' FileTree.place?_eq_some_iff

theorem access_plain : plain.access = FileTree.access := by
  have hwrite : plain.access.write = FileTree.access.write := by
    funext path contents
    apply StateT.ext
    intro t
    cases h : t.place? path with
    | some place => simp [access, plain, FileTree.access, h, FileTree.write?_eq_map_place?]
    | none => simp [access, plain, FileTree.access, h, FileTree.write?_eq_map_place?]
  exact congrArg (FileAccess.mk FileTree.access.read?) hwrite

variable {files : TreeAccess} {tree : FileTree}

theorem run_read? (path : Bytes) :
    (files.access.read? path).run tree = (files.read? tree path, tree) :=
  rfl

theorem run_write_of_place? {path : Bytes} {place : Place}
    (h : files.place? tree path = some place) (contents : Bytes) :
    (files.access.write path contents).run tree = (true, tree.write place contents) := by
  simp [access, h]
  rfl

theorem run_write_of_closed {path : Bytes} (h : files.place? tree path = none)
    (contents : Bytes) : (files.access.write path contents).run tree = (false, tree) := by
  simp [access, h]
  rfl

/-! ## §2. What a run reads. -/

/-- The types under a path; an empty path gives none. -/
def GivesTypes (files : TreeAccess) (tree : FileTree) (path : Bytes) (types : TypeTable) :
    Prop :=
  (path = [] ∧ types = .empty)
    ∨ (path ≠ [] ∧ ∃ input, files.read? tree path = some input
        ∧ TypeTable.read input = .ok types)

/-- The command line is accepted and asks for a table, and what it names can
be read to its end: these types and this listing. -/
structure Reads (files : TreeAccess) (tree : FileTree) (commandLine : List Bytes)
    (o : Options) (types : TypeTable) (text : Bytes) : Prop where
  ofWords : Options.ofWords commandLine.tail = .ok o
  help : o.help = false
  types : files.GivesTypes tree o.types types
  input : files.read? tree o.input = some ⟨text, false⟩

/-- What keeps a run from writing a table. -/
inductive Stops (files : TreeAccess) (tree : FileTree) (commandLine : List Bytes) : Prop
  | refused {error : OptionsError} (h : Options.ofWords commandLine.tail = .error error)
  | help {o : Options} (ho : Options.ofWords commandLine.tail = .ok o) (h : o.help = true)
  | typesClosed {o : Options} (ho : Options.ofWords commandLine.tail = .ok o)
      (hpath : o.types ≠ []) (h : files.read? tree o.types = none)
  /-- The types can not be read to their end, or a line of them is malformed. -/
  | typesFailed {o : Options} {input : Input} {error : TypeTable.ReadError}
      (ho : Options.ofWords commandLine.tail = .ok o) (hpath : o.types ≠ [])
      (hinput : files.read? tree o.types = some input)
      (h : TypeTable.read input = .error error)
  | inputClosed {o : Options} (ho : Options.ofWords commandLine.tail = .ok o)
      (h : files.read? tree o.input = none)
  | inputInterrupted {o : Options} {input : Input}
      (ho : Options.ofWords commandLine.tail = .ok o)
      (hinput : files.read? tree o.input = some input) (h : input.interrupted = true)
  | outputClosed {o : Options} (ho : Options.ofWords commandLine.tail = .ok o)
      (hpath : o.output ≠ []) (h : files.place? tree o.output = none)

/-- The table of types under a path, or why there is none. -/
def typesAt (files : TreeAccess) (tree : FileTree) (path : Bytes) :
    Except RunError TypeTable :=
  if path = [] then .ok .empty
  else
    match files.read? tree path with
    | none => .error (.cannotOpen path)
    | some input => (TypeTable.read input).mapError (.types path)

theorem run_readTypes (path : Bytes) :
    (Tool.readTypes files.access path).run tree = (files.typesAt tree path, tree) := by
  unfold Tool.readTypes typesAt
  split
  · rfl
  · show StateT.run (match files.read? tree path with
        | none => _
        | some input => _) tree = _
    cases files.read? tree path <;> rfl

theorem typesAt_eq_ok_iff {path : Bytes} {types : TypeTable} :
    files.typesAt tree path = .ok types ↔ files.GivesTypes tree path types := by
  unfold typesAt GivesTypes
  by_cases hpath : path = []
  · simp [hpath, eq_comm]
  · cases hread : files.read? tree path with
    | none => simp [hpath]
    | some input => cases htypes : TypeTable.read input <;> simp [hpath, htypes, Except.mapError]

theorem interrupted_eq_false_of_read {input : Input} {types : TypeTable}
    (h : TypeTable.read input = .ok types) : input.interrupted = false := by
  cases hinterrupted : input.interrupted with
  | false => rfl
  | true =>
      -- whatever the lines declare, the end of the text is missing
      have hnever : ∀ declared : Except TypeTable.ReadError TypeTable,
          (declared >>= fun _ => Except.error .interrupted) ≠ .ok types := by
        intro declared
        cases declared <;> exact nofun
      unfold TypeTable.read at h
      rw [hinterrupted] at h
      exact absurd h (hnever _)

/-- The command line is accepted and asks for a table, and these types and
this listing are what is in the files that it names. -/
structure Finds (files : TreeAccess) (tree : FileTree) (commandLine : List Bytes)
    (o : Options) (types : TypeTable) (text : Bytes) : Prop where
  ofWords : Options.ofWords commandLine.tail = .ok o
  help : o.help = false
  types : (o.types = [] ∧ types = .empty)
    ∨ (o.types ≠ [] ∧ ∃ declarations, files.Holds tree o.types declarations
        ∧ TypeTable.read ⟨declarations, false⟩ = .ok types)
  input : files.Holds tree o.input text

/-- **What is read to its end** is what is in the files. -/
theorem Reads.finds {commandLine : List Bytes} {o : Options} {types : TypeTable} {text : Bytes}
    (h : files.Reads tree commandLine o types text) :
    files.Finds tree commandLine o types text := by
  obtain ⟨ho, hhelp, htypes, hinput⟩ := h
  refine ⟨ho, hhelp, ?_, files.exists_place hinput⟩
  rcases htypes with hnone | ⟨hpath, input, hread, htable⟩
  · exact .inl hnone
  · obtain ⟨declarations, interrupted⟩ := input
    cases interrupted_eq_false_of_read htable
    exact .inr ⟨hpath, declarations, files.exists_place hread, htable⟩

/-! ## §3. The parts of a run. -/

/-- Converting a listing, on the files of a tree. -/
theorem run_convert (o : Options) :
    (Tool.convert files.access o).run tree
      = match files.typesAt tree o.types with
        | .error error => (error.report [], tree)
        | .ok types =>
          match files.read? tree o.input with
          | none => ((RunError.cannotOpen o.input).report [], tree)
          | some input =>
            match Conversion.start.listing types.erases input with
            | (.error error, c) =>
              ((RunError.listing o.input error).report (Tool.shownDiagnostics o c), tree)
            | (.ok (), c) => (Tool.deliver files.access o c).run tree := by
  unfold Tool.convert
  rw [StateT.run_bind, run_readTypes]
  cases files.typesAt tree o.types with
  | error error => rfl
  | ok types =>
      show StateT.run (files.access.read? o.input >>= _) tree = _
      rw [StateT.run_bind, run_read?]
      cases files.read? tree o.input with
      | none => rfl
      | some input =>
          show StateT.run (match Conversion.start.listing types.erases input with
            | (.error error, c) => _
            | (.ok (), c) => _) tree = _
          dsimp only
          rcases Conversion.start.listing types.erases input with ⟨answer, c⟩
          cases answer <;> rfl

/-- Writing the table of a conversion, on the files of a tree. -/
theorem run_deliver (o : Options) {c : Conversion} {table : Bytes} (h : c.Writes table) :
    (Tool.deliver files.access o c).run tree
      = if o.output = [] then (Tool.finished o c table, tree)
        else
          match files.place? tree o.output with
          | some place => (Tool.finished o c [], tree.write place table)
          | none =>
            ((RunError.cannotOpen o.output).report (Tool.shownDiagnostics o c), tree) := by
  unfold Tool.deliver
  rw [show c.model.write c.store = .ok table from h]
  dsimp only
  by_cases hpath : o.output = []
  · rw [if_pos hpath, if_pos hpath]
    rfl
  · rw [if_neg hpath, if_neg hpath, StateT.run_bind]
    cases hplace : files.place? tree o.output with
    | some place =>
        rw [run_write_of_place? hplace]
        rfl
    | none =>
        rw [run_write_of_closed hplace]
        rfl

/-! ## §4. Before the table is written. -/

/-- The run failed, and it changed nothing. -/
structure FailsEarly (tree : FileTree) (result : Report × FileTree) : Prop where
  success : result.1.success = false
  stdout : result.1.stdout = []
  tree : result.2 = tree

theorem failsEarly_report (shown : Bytes) (error : RunError) :
    FailsEarly tree (error.report shown, tree) :=
  ⟨rfl, rfl, rfl⟩

/-- What a listing that was read to its end comes to. -/
def converted (types : TypeTable) (text : Bytes) : Conversion :=
  (Conversion.start.listing types.erases ⟨text, false⟩).2

/-- A listing is only converted with its types, and if it can be read. -/
theorem convert_of_not_gives {o : Options}
    (hbytes : ∀ input, files.read? tree o.input = some input →
      input.text.length < UInt32.size - 2)
    (h : ¬ ∃ types text, files.GivesTypes tree o.types types
      ∧ files.read? tree o.input = some ⟨text, false⟩) :
    FailsEarly tree ((Tool.convert files.access o).run tree) := by
  rw [run_convert]
  cases htypes : files.typesAt tree o.types with
  | error error => exact failsEarly_report [] error
  | ok types =>
      cases hinput : files.read? tree o.input with
      | none => exact failsEarly_report [] (.cannotOpen o.input)
      | some input =>
          obtain ⟨text, interrupted⟩ := input
          cases interrupted with
          | false => exact absurd ⟨types, text, typesAt_eq_ok_iff.1 htypes, hinput⟩ h
          | true =>
              -- the conversion ends with what was read, but not well
              have hanswer := (Conversion.start_listing types (hbytes _ hinput)).1
              dsimp only
              rcases hlisting : Conversion.start.listing types.erases ⟨text, true⟩
                with ⟨answer, c⟩
              rw [hlisting] at hanswer
              cases hanswer
              exact failsEarly_report _ _

theorem convert_of_gives {o : Options} {types : TypeTable} {text : Bytes}
    (htypes : files.GivesTypes tree o.types types)
    (hinput : files.read? tree o.input = some ⟨text, false⟩)
    (hbytes : text.length < UInt32.size - 2) :
    (Tool.convert files.access o).run tree
      = (Tool.deliver files.access o (converted types text)).run tree := by
  rw [run_convert, typesAt_eq_ok_iff.2 htypes, hinput]
  have hinput' : (Input.mk text false).text.length < UInt32.size - 2 := hbytes
  have hanswer := (Conversion.start_listing types hinput').1
  unfold converted
  dsimp only
  rcases hlisting : Conversion.start.listing types.erases ⟨text, false⟩ with ⟨answer, c⟩
  rw [hlisting] at hanswer
  cases hanswer
  rfl

/-! ## §5. A whole run. -/

variable {commandLine : List Bytes}

/-- A run that can not read what it needs stops. -/
theorem stops_of_not_reads (h : ¬ ∃ o types text, files.Reads tree commandLine o types text) :
    files.Stops tree commandLine := by
  -- what is missing is looked for in the order in which a run reads
  cases ho : Options.ofWords commandLine.tail with
  | error error => exact .refused ho
  | ok o =>
      by_cases hhelp : o.help = true
      · exact .help ho hhelp
      · rw [Bool.not_eq_true] at hhelp
        by_cases htypes : ∃ types, files.GivesTypes tree o.types types
        · obtain ⟨types, htypes⟩ := htypes
          cases hinput : files.read? tree o.input with
          | none => exact .inputClosed ho hinput
          | some input =>
              obtain ⟨text, interrupted⟩ := input
              cases interrupted with
              | true => exact .inputInterrupted ho hinput rfl
              | false => exact absurd ⟨o, types, text, ho, hhelp, htypes, hinput⟩ h
        · have hpath : o.types ≠ [] := fun hpath => htypes ⟨.empty, .inl ⟨hpath, rfl⟩⟩
          cases hread : files.read? tree o.types with
          | none => exact .typesClosed ho hpath hread
          | some input =>
              cases htable : TypeTable.read input with
              | error error => exact .typesFailed ho hpath hread htable
              | ok types => exact absurd ⟨types, .inr ⟨hpath, input, hread, htable⟩⟩ htypes

/-- A run that can read what it needs stops only at its output. -/
theorem Reads.stops_iff {o : Options} {types : TypeTable} {text : Bytes}
    (h : files.Reads tree commandLine o types text) :
    files.Stops tree commandLine ↔ o.output ≠ [] ∧ files.place? tree o.output = none := by
  obtain ⟨ho, hhelp, htypes, hinput⟩ := h
  constructor
  · intro hstops
    -- every other reason is at odds with what was read
    cases hstops with
    | refused ho' => cases ho.symm.trans ho'
    | help ho' h => cases ho.symm.trans ho'; cases hhelp.symm.trans h
    | typesClosed ho' hpath h =>
        cases ho.symm.trans ho'
        rcases htypes with ⟨hnone, -⟩ | ⟨-, input, hread, -⟩
        · exact absurd hnone hpath
        · cases h.symm.trans hread
    | typesFailed ho' hpath hread h =>
        cases ho.symm.trans ho'
        rcases htypes with ⟨hnone, -⟩ | ⟨-, input, hread', htable⟩
        · exact absurd hnone hpath
        · cases hread.symm.trans hread'
          cases h.symm.trans htable
    | inputClosed ho' h => cases ho.symm.trans ho'; cases hinput.symm.trans h
    | inputInterrupted ho' hread h =>
        cases ho.symm.trans ho'
        cases hinput.symm.trans hread
        cases h
    | outputClosed ho' hpath h =>
        cases ho.symm.trans ho'
        exact ⟨hpath, h⟩
  · intro hclosed
    exact .outputClosed ho hclosed.1 hclosed.2

section

variable (hselftest : ∀ o, Options.ofWords commandLine.tail = .ok o → o.selftest = false)
  (hbytes : ∀ o input, Options.ofWords commandLine.tail = .ok o →
    files.read? tree o.input = some input → input.text.length < UInt32.size - 2)

include hselftest

theorem run_of_ofWords {o : Options} (ho : Options.ofWords commandLine.tail = .ok o)
    (hhelp : o.help = false) :
    (Tool.run files.access commandLine).run tree = (Tool.convert files.access o).run tree := by
  unfold Tool.run
  rw [ho]
  dsimp only
  rw [hhelp, if_neg Bool.false_ne_true, hselftest o ho, if_neg Bool.false_ne_true]

include hbytes

/-- **A run that can not read what it needs** changes nothing; and it fails,
unless help was asked for. -/
theorem run_of_not_reads (h : ¬ ∃ o types text, files.Reads tree commandLine o types text) :
    ((Tool.run files.access commandLine).run tree).1.stdout = []
      ∧ ((Tool.run files.access commandLine).run tree).2 = tree
      ∧ (((Tool.run files.access commandLine).run tree).1.success = true ↔
          ∃ o, Options.ofWords commandLine.tail = .ok o ∧ o.help = true) := by
  cases ho : Options.ofWords commandLine.tail with
  | error error =>
      unfold Tool.run
      rw [ho]
      exact ⟨rfl, rfl, nofun, nofun⟩
  | ok o =>
      by_cases hhelp : o.help = true
      · unfold Tool.run
        rw [ho]
        dsimp only
        rw [if_pos hhelp]
        exact ⟨rfl, rfl, fun _ => ⟨o, rfl, hhelp⟩, fun _ => rfl⟩
      · rw [Bool.not_eq_true] at hhelp
        rw [run_of_ofWords hselftest ho hhelp]
        have hfails : FailsEarly tree ((Tool.convert files.access o).run tree) := by
          apply convert_of_not_gives fun input => hbytes o input ho
          rintro ⟨types, text, htypes, hinput⟩
          exact h ⟨o, types, text, ho, hhelp, htypes, hinput⟩
        refine ⟨hfails.stdout, hfails.tree, ?_, ?_⟩
        · intro hsuccess
          cases hfails.success.symm.trans hsuccess
        · rintro ⟨o', ho', hhelp'⟩
          cases ho'
          cases hhelp.symm.trans hhelp'

/-- **A run that can read what it needs** has only its table to write. -/
theorem run_of_reads {o : Options} {types : TypeTable} {text : Bytes}
    (h : files.Reads tree commandLine o types text) :
    (Tool.run files.access commandLine).run tree
      = if o.output = [] then
          (Tool.finished o (converted types text) (tableOf types (Input.lines ⟨text, false⟩)), tree)
        else
          match files.place? tree o.output with
          | some place =>
            (Tool.finished o (converted types text) [],
              tree.write place (tableOf types (Input.lines ⟨text, false⟩)))
          | none =>
            ((RunError.cannotOpen o.output).report
              (Tool.shownDiagnostics o (converted types text)), tree) := by
  have hshort := hbytes o _ h.ofWords h.input
  rw [run_of_ofWords hselftest h.ofWords h.help, convert_of_gives h.types h.input hshort]
  exact run_deliver o (Conversion.start_listing types hshort).2

end

/-- **What a run does to the files.**  If it stops before its table is
written, all files are as they were, and nothing is printed.  Otherwise the
table of its listing and its types is what it prints, and no file changes;
or, if an output is named, its path leads to a place that holds the table
then, nothing is printed, and no other file changes.  With `plain` this is
what a run over `FileTree.access` does. -/
theorem run_changes_output_only (files : TreeAccess) (tree : FileTree)
    (commandLine : List Bytes)
    (hselftest : ∀ o, Options.ofWords commandLine.tail = .ok o → o.selftest = false)
    (hbytes : ∀ o input, Options.ofWords commandLine.tail = .ok o →
      files.read? tree o.input = some input → input.text.length < UInt32.size - 2)
    {report : Report} {after : FileTree}
    (hrun : (Tool.run files.access commandLine).run tree = (report, after)) :
    (files.Stops tree commandLine → after = tree ∧ report.stdout = [])
    ∧ (¬ files.Stops tree commandLine → ∃ o types text,
        files.Finds tree commandLine o types text
          ∧ (o.output = [] →
              report.stdout = tableOf types (Input.lines ⟨text, false⟩) ∧ after = tree)
          ∧ (o.output ≠ [] → ∃ place, files.resolve? tree o.output = some place
              ∧ files.resolve? after o.output = some place
              ∧ after.get? place = some (.file (tableOf types (Input.lines ⟨text, false⟩)))
              ∧ report.stdout = []
              ∧ ∀ other, other ≠ place → after.get? other = tree.get? other)) := by
  by_cases hreads : ∃ o types text, files.Reads tree commandLine o types text
  · -- the run has what it reads, so nothing but its output can stop it
    obtain ⟨o, types, text, h⟩ := hreads
    rw [run_of_reads hselftest hbytes h] at hrun
    rw [h.stops_iff]
    constructor
    · rintro ⟨hpath, hclosed⟩
      rw [if_neg hpath, hclosed] at hrun
      cases hrun
      exact ⟨rfl, rfl⟩
    · intro hopen
      refine ⟨o, types, text, h.finds, ?_, ?_⟩
      · intro hpath
        rw [if_pos hpath] at hrun
        cases hrun
        exact ⟨rfl, rfl⟩
      · intro hpath
        rw [if_neg hpath] at hrun
        cases hplace : files.place? tree o.output with
        | none => exact absurd ⟨hpath, hplace⟩ hopen
        | some place =>
            rw [hplace] at hrun
            cases hrun
            obtain ⟨hresolve, hfile⟩ := files.resolve?_place hplace
            refine ⟨place, hresolve, files.resolve?_write hresolve hfile _,
              tree.get?_write_self hfile _, rfl, ?_⟩
            intro other hother
            exact tree.get?_write_of_ne hother.symm _
  · -- something is missing, so the run stops before it opens its output
    have hunchanged := run_of_not_reads hselftest hbytes hreads
    rw [hrun] at hunchanged
    refine ⟨fun _ => ⟨hunchanged.2.1, hunchanged.1⟩, ?_⟩
    intro hopen
    exact absurd (stops_of_not_reads hreads) hopen

/-- A listing under a path from the root, and the same file as the output
under a path that leads up from the working directory.  One of the lines is
malformed, so the run fails; but it writes, and it changes nothing else. -/
theorem run_changes_output_only_in_place :
    ∃ (tree after : FileTree) (report : Report),
      (Tool.run FileTree.access ["pc", "-q", "/in/list", "--output", "../in/list"]).run tree
          = (report, after)
        ∧ tree.workingDirectory = [("work" : Bytes)]
        ∧ tree.read? "/in/list" = some ⟨"b.c: B\na.c: A && !C\nno file\n", false⟩
        ∧ report.success = false ∧ report.stdout = []
        ∧ after.read? "../in/list" = some ⟨"a.c;(A && C)\nb.c;B\n", false⟩
        ∧ ∀ other : Place, other ≠ [("in" : Bytes), "list"] →
            after.get? other = tree.get? other := by
  obtain ⟨tree, htree⟩ : ∃ tree, tree
      = (FileTree.workingIn ["work"]).withFile "/in/list" "b.c: B\na.c: A && !C\nno file\n" :=
    ⟨_, rfl⟩
  have hinput : tree.read? "/in/list" = some ⟨"b.c: B\na.c: A && !C\nno file\n", false⟩ := by
    rw [htree]
    decide +kernel
  have hplace : tree.place? "../in/list" = some [("in" : Bytes), "list"] := by
    rw [htree]
    decide +kernel
  have hfails : ((Tool.run FileTree.access ["pc", "-q", "/in/list", "--output", "../in/list"]).run
      tree).1.success = false := by
    rw [htree]
    decide +kernel
  have ho : Options.ofWords ["-q", "/in/list", "--output", "../in/list"]
      = .ok { input := "/in/list", output := "../in/list", quiet := true } := by decide +kernel
  have hrun := run_changes_output_only plain tree
    ["pc", "-q", "/in/list", "--output", "../in/list"]
    (fun o => Options.selftest_eq_false (by decide)) (by
      intro o input ho' hread
      cases ho.symm.trans ho'
      cases hinput.symm.trans hread
      decide) (Prod.eta _).symm
  rw [access_plain] at hrun
  obtain ⟨o, types, text, hfinds, -, hwrites⟩ := hrun.2 (by
    have hreads : plain.Reads tree ["pc", "-q", "/in/list", "--output", "../in/list"] _ .empty _ :=
      ⟨ho, rfl, .inl ⟨rfl, rfl⟩, hinput⟩
    rw [hreads.stops_iff]
    rintro ⟨-, hclosed⟩
    cases hplace.symm.trans hclosed)
  cases ho.symm.trans hfinds.ofWords
  cases hinput.symm.trans (holds_plain_iff.1 hfinds.input)
  obtain ⟨place, hresolve, hresolve', hget, hstdout, hothers⟩ := hwrites (by decide)
  cases hplace.symm.trans hresolve
  have hwritten := holds_plain_iff.1 ⟨_, hresolve', hget⟩
  refine ⟨tree, _, _, (Prod.eta _).symm, ?_, hinput, hfails, hstdout, ?_, hothers⟩
  · rw [htree]
    rfl
  · rcases hfinds.types with ⟨-, rfl⟩ | ⟨hpath, -⟩
    · rw [hwritten]
      decide +kernel
    · exact absurd rfl hpath

end TreeAccess

end PresenceTable
