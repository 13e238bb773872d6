/-
  PresenceTable.CommandLine.Tool
  ──────────────────────────────
  **A RUN OF THE TOOL.**

  A run reads its command line, the table of types if one is given and the
  listing, and then writes the table of presence conditions.  Nothing is
  written unless everything was read.  How files are reached is left open:
  a run is a program over any way to read and to write them, and
  `FileTree.access` is one that can be reasoned about.
-/
import PresenceTable.CommandLine.FileTree
import PresenceTable.CommandLine.Options
import PresenceTable.CommandLine.Usage
import PresenceTable.Conversion
import PresenceTable.SelfTest.Suite
import PresenceTable.TypeTable

namespace PresenceTable

/-! ## §1. Files and reports. -/

/-- A way to reach files. -/
structure FileAccess (m : Type → Type) where
  /-- What can be read under a path, if it can be opened. -/
  read? : Bytes → m (Option Input)
  /-- Replace what is under a path, and say whether it could be opened. -/
  write : Bytes → Bytes → m Bool

/-- The files of a file tree, which is the state of the run. -/
def FileTree.access : FileAccess (StateM FileTree) where
  read? path := do return (← get).read? path
  write path contents := do
    match (← get).write? path contents with
    | some tree =>
      set tree
      return true
    | none => return false

/-- What a run leaves besides files. -/
structure Report where
  success : Bool
  stdout : Bytes := []
  stderr : Bytes := []
  deriving DecidableEq, Repr

namespace Report

/-- The exit status. -/
def exitStatus (r : Report) : UInt32 := if r.success then 0 else 1

end Report

/-! ## §2. What ends a run early. -/

/-- Why a run ended before its table was written. -/
inductive RunError where
  | cannotOpen (path : Bytes)
  | types (path : Bytes) (error : TypeTable.ReadError)
  | listing (path : Bytes) (error : ConversionError)
  | table (fault : Fault)
  deriving DecidableEq, Repr

namespace RunError

/-- The wording of an error.  Only a listing whose reading broke off is
named in front. -/
def message : RunError → Bytes
  | .cannotOpen path => "cannot open file: " ++ path
  | .types path error => error.message path
  | .listing path (.interrupted lines) =>
    path ++ ": " ++ (ConversionError.interrupted lines).message
  | .listing _ (.failed fault) => fault.message
  | .table fault => fault.message

end RunError

/-- A line that gives the reason for a failure. -/
def errorLine (message : Bytes) : Bytes := "ERROR: " ++ message.untilNul ++ "\n"

/-- The report of a run that ended early, after what was reported before. -/
def RunError.report (shown : Bytes) (error : RunError) : Report :=
  { success := false, stderr := shown ++ errorLine error.message }

/-! ## §3. The run. -/

namespace Tool

variable {m : Type → Type} [Monad m]

/-- The table of types under a path; none is given by an empty path. -/
def readTypes (files : FileAccess m) (path : Bytes) : m (Except RunError TypeTable) := do
  if path = [] then
    return .ok .empty
  else
    match ← files.read? path with
    | none => return .error (.cannotOpen path)
    | some input => return (TypeTable.read input).mapError (.types path)

/-- The line about the numbers of a conversion. -/
def statsLine (c : Conversion) : Bytes :=
  "Stats: " ++ c.stats.text ++ " files=" ++ Bytes.decimal c.model.size
    ++ " variables=" ++ Bytes.decimal c.store.variableCount
    ++ " nodes=" ++ Bytes.decimal c.store.size ++ "\n"

/-- What is shown of the diagnostics of a conversion. -/
def shownDiagnostics (o : Options) (c : Conversion) : Bytes :=
  Diagnostic.shownAll c.diagnostics.toList (!o.quiet)

/-- The report of a run that wrote its table. -/
def finished (o : Options) (c : Conversion) (stdout : Bytes) : Report :=
  { success := c.errors = 0
    stdout
    stderr := shownDiagnostics o c ++ if o.showStats then statsLine c else [] }

/-- Write the table of a finished conversion. -/
def deliver (files : FileAccess m) (o : Options) (c : Conversion) : m Report := do
  match c.model.write c.store with
  | .error fault => return (RunError.table fault).report (shownDiagnostics o c)
  | .ok table =>
    if o.output = [] then
      return finished o c table
    else if ← files.write o.output table then
      return finished o c []
    else
      return (RunError.cannotOpen o.output).report (shownDiagnostics o c)

/-- Convert the listing that the options name. -/
def convert (files : FileAccess m) (o : Options) : m Report := do
  match ← readTypes files o.types with
  | .error error => return error.report []
  | .ok types =>
    match ← files.read? o.input with
    | none => return (RunError.cannotOpen o.input).report []
    | some input =>
      match Conversion.start.listing types.erases input with
      | (.error error, c) =>
        return (RunError.listing o.input error).report (shownDiagnostics o c)
      | (.ok (), c) => deliver files o c

/-- A run with a whole command line, which begins with the name under which
the program was started. -/
def run (files : FileAccess m) (commandLine : List Bytes) : m Report := do
  match Options.ofWords commandLine.tail with
  | .error error =>
    return { success := false, stderr := errorLine error.message ++ usage commandLine.head? }
  | .ok o =>
    if o.help then
      return { success := true, stderr := usage commandLine.head? }
    else if o.selftest then
      return { success := SelfTest.tally.passed, stderr := SelfTest.text }
    else
      convert files o

end Tool

end PresenceTable
