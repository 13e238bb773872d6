/-
  PresenceTable.Input
  ───────────────────
  **A TEXT AS IT IS READ.**

  Reading a file yields bytes and then either reports the end of the file
  or breaks off.  A line is what stands between newlines; what follows the
  last newline is a line too when the text ends there, but is lost when
  the reading breaks off in the middle of it.

  Main results:
    * `lines_of_not_interrupted` / `lines_of_interrupted` — the lines in
      the two cases, from the pieces between newlines.
-/
import PresenceTable.Bytes

namespace PresenceTable

/-- The bytes that could be read, and whether the reading then broke off
instead of reporting the end of the text. -/
structure Input where
  text : Bytes
  interrupted : Bool := false
  deriving DecidableEq, Repr

namespace Input

/-- The byte that ends a line. -/
def isNewline (b : UInt8) : Bool := b == 10

/-- The lines that were read to their end. -/
def lines (input : Input) : List Bytes :=
  let pieces := Bytes.split isNewline input.text
  if input.interrupted || pieces.getLast? == some [] then pieces.dropLast else pieces

/-- The lines with their numbers, the first of which is 1.  Numbers are
kept in 32 bits. -/
def numberedLines (input : Input) : List (Bytes × UInt32) :=
  (input.lines.zipIdx 1).map fun (line, number) => (line, UInt32.ofNat number)

/-- The number of lines that were read to their end, in 32 bits. -/
def lineCount (input : Input) : UInt32 := UInt32.ofNat input.lines.length

theorem lines_of_interrupted (text : Bytes) :
    lines ⟨text, true⟩ = (Bytes.split isNewline text).dropLast := by
  simp [lines]

theorem lines_of_not_interrupted (text : Bytes) :
    lines ⟨text, false⟩
      = if (Bytes.split isNewline text).getLast? = some [] then
          (Bytes.split isNewline text).dropLast
        else Bytes.split isNewline text := by
  simp [lines]

end Input

end PresenceTable
