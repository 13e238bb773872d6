/-
  PresenceTable.Conversion
  ────────────────────────
  **FROM A LISTING TO RECORDS.**

  Every line of a listing gets a verdict.  The verdict alone decides what
  is recorded, what is reported and what is counted; the store decides
  nothing but the id of a condition.

  A file is first recorded with the constant `bot`, so that a file whose
  condition is invalid or can not be read is never part of the build.  The
  condition itself, after elimination, is recorded on top of that.

  Main results:
    * `lines_append` — a conversion goes on where it was left.
-/
import PresenceTable.Diagnostic
import PresenceTable.Input
import PresenceTable.Listing
import PresenceTable.Model
import PresenceTable.Store.Elimination
import PresenceTable.Store.Read

namespace PresenceTable

/-! ## §1. The verdict on a line. -/

/-- What became of a line. -/
inductive Verdict where
  /-- It says nothing. -/
  | blank
  /-- It has no path. -/
  | malformed (text : Bytes)
  /-- Its condition is marked as invalid. -/
  | invalid (path : Bytes)
  /-- Its condition can not be read. -/
  | unreadable (path condition : Bytes) (error : SyntaxError)
  /-- Its condition was read, but its elimination failed. -/
  | failed (path : Bytes) (fault : Fault)
  /-- Its condition has this id. -/
  | converted (path : Bytes) (condition : NodeId)
  deriving DecidableEq, Repr

namespace Verdict

/-- What is recorded for a line. -/
def records : Verdict → List Record
  | .blank | .malformed _ => []
  | .invalid path | .unreadable path _ _ | .failed path _ => [(path, Store.botId)]
  | .converted path condition => [(path, Store.botId), (path, condition)]

/-- What is reported about a line with the given number. -/
def diagnostic? (line : UInt32) : Verdict → Option Diagnostic
  | .blank | .failed _ _ | .converted _ _ => none
  | .malformed text =>
    some ⟨.error, text, line, "malformed line, expected '<file>: <condition>'"⟩
  | .invalid path =>
    some ⟨.warning, path, line,
      "presence condition for file " ++ path ++ " in line " ++ Bytes.decimal line.toNat
        ++ " is invalid"⟩
  | .unreadable path condition error =>
    some ⟨.error, path, line,
      "couldn't parse expression \"" ++ condition ++ "\" in line " ++ Bytes.decimal line.toNat
        ++ ": " ++ error.message ++ " at column " ++ Bytes.decimal error.position.column.toNat⟩

/-- Why the conversion can not go on after a line. -/
def fault? : Verdict → Option Fault
  | .failed _ fault => some fault
  | _ => none

end Verdict

/-- The verdict on a path and its condition, with no regard to the marker
of invalid conditions. -/
def judgeCondition (erased : Name → Bool) (s : Store) (path condition : Bytes) (line : UInt32) :
    Verdict × Store :=
  match s.read condition line with
  | (.error error, s) => (.unreadable path condition error, s)
  | (.ok id, s) =>
    match s.eliminate erased id with
    | (.error fault, s) => (.failed path fault, s)
    | (.ok id, s) => (.converted path id, s)

/-- The verdict on a line with the given number. -/
def judge (erased : Name → Bool) (s : Store) (text : Bytes) (line : UInt32) : Verdict × Store :=
  match ListingLine.ofText text with
  | .blank => (.blank, s)
  | .malformed => (.malformed text, s)
  | .entry path condition =>
    if Bytes.occursIn invalidMarker condition then (.invalid path, s)
    else judgeCondition erased s path condition line

/-! ## §2. Counting lines. -/

/-- How many lines had which verdict. -/
structure Stats where
  /-- Lines that are not blank. -/
  lines : Nat := 0
  /-- Lines whose condition was read. -/
  parsed : Nat := 0
  /-- Lines whose condition is marked as invalid. -/
  invalid : Nat := 0
  /-- Lines whose condition can not be read. -/
  parseErrors : Nat := 0
  /-- Lines without a path. -/
  malformed : Nat := 0
  deriving DecidableEq, Repr

namespace Stats

/-- The counts after one more line. -/
def count (s : Stats) : Verdict → Stats
  | .blank => s
  | .malformed _ => { s with lines := s.lines + 1, malformed := s.malformed + 1 }
  | .invalid _ => { s with lines := s.lines + 1, invalid := s.invalid + 1 }
  | .unreadable _ _ _ => { s with lines := s.lines + 1, parseErrors := s.parseErrors + 1 }
  | .failed _ _ => { s with lines := s.lines + 1 }
  | .converted _ _ => { s with lines := s.lines + 1, parsed := s.parsed + 1 }

/-- The counts in one line. -/
def text (s : Stats) : Bytes :=
  "lines=" ++ Bytes.decimal s.lines ++ " parsed=" ++ Bytes.decimal s.parsed
    ++ " invalid=" ++ Bytes.decimal s.invalid ++ " parse_errors=" ++ Bytes.decimal s.parseErrors
    ++ " malformed=" ++ Bytes.decimal s.malformed

end Stats

/-! ## §3. Conversions. -/

/-- A store, and what was counted, recorded and reported so far. -/
structure Conversion where
  store : Store := .empty
  stats : Stats := {}
  records : Array Record := #[]
  diagnostics : Array Diagnostic := #[]

/-- Why a conversion ended before its listing did. -/
inductive ConversionError where
  /-- The reading broke off after so many lines. -/
  | interrupted (lines : UInt32)
  /-- The elimination of a condition failed. -/
  | failed (fault : Fault)
  deriving DecidableEq, Repr

/-- The wording of a conversion's error. -/
def ConversionError.message : ConversionError → Bytes
  | .interrupted lines => "read error after line " ++ Bytes.decimal lines.toNat
  | .failed fault => fault.message

namespace Conversion

/-- Nothing has been converted. -/
def start : Conversion := {}

/-- Convert one line. -/
def line (erased : Name → Bool) (c : Conversion) (text : Bytes) (number : UInt32) :
    Except Fault Unit × Conversion :=
  let ⟨store, stats, records, diagnostics⟩ := c
  let (v, store) := judge erased store text number
  let c : Conversion :=
    { store
      stats := stats.count v
      records := records ++ v.records
      diagnostics := diagnostics ++ (v.diagnostic? number).toList }
  match v.fault? with
  | none => (.ok (), c)
  | some fault => (.error fault, c)

/-- Convert numbered lines, up to the first fault. -/
def lines (erased : Name → Bool) (c : Conversion) :
    List (Bytes × UInt32) → Except Fault Unit × Conversion
  | [] => (.ok (), c)
  | (text, number) :: later =>
    match c.line erased text number with
    | (.ok (), c) => lines erased c later
    | (.error fault, c) => (.error fault, c)

/-- Convert a whole listing. -/
def listing (erased : Name → Bool) (c : Conversion) (input : Input) :
    Except ConversionError Unit × Conversion :=
  match c.lines erased input.numberedLines with
  | (.error fault, c) => (.error (.failed fault), c)
  | (.ok (), c) =>
    (if input.interrupted then .error (.interrupted input.lineCount) else .ok (), c)

/-- The number of warnings. -/
def warnings (c : Conversion) : Nat := Diagnostic.count .warning c.diagnostics.toList

/-- The number of errors. -/
def errors (c : Conversion) : Nat := Diagnostic.count .error c.diagnostics.toList

/-- The table of what was recorded. -/
def model (c : Conversion) : Model := Model.empty.addAll c.records.toList

theorem lines_append (erased : Name → Bool) (c : Conversion) (xs ys : List (Bytes × UInt32)) :
    c.lines erased (xs ++ ys)
      = match c.lines erased xs with
        | (.ok (), c) => c.lines erased ys
        | (.error fault, c) => (.error fault, c) := by
  induction xs generalizing c with
  | nil => rfl
  | cons x xs ih =>
    obtain ⟨text, number⟩ := x
    simp only [List.cons_append, lines]
    split
    · exact ih _
    · rfl

end Conversion

end PresenceTable
