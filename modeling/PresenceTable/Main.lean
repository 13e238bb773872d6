/-
  PresenceTable.Main
  ──────────────────
  **THE PROGRAM.**

  Gives the tool the files of the machine, and hands on its report.
-/
import PresenceTable.CommandLine.Tool

namespace PresenceTable

namespace Program

/-- A text as a path or a word of the machine. -/
def nameOf (bytes : Bytes) : String := (String.fromUTF8? ⟨bytes.toArray⟩).getD ""

/-- Read until the end, or until the reading breaks off. -/
def readAll (handle : IO.FS.Handle) : IO Input := do
  let mut text : ByteArray := .empty
  repeat
    match ← (handle.read 65536).toBaseIO with
    | .error _ => return { text := text.toList, interrupted := true }
    | .ok piece =>
      if piece.isEmpty then
        break
      text := text ++ piece
  return { text := text.toList }

/-- The files of the machine. -/
def files : FileAccess IO where
  read? path := do
    match ← (IO.FS.Handle.mk (nameOf path) .read).toBaseIO with
    | .error _ => return none
    | .ok handle => return some (← readAll handle)
  write path contents := do
    match ← (IO.FS.Handle.mk (nameOf path) .write).toBaseIO with
    | .error _ => return false
    | .ok handle =>
      handle.write ⟨contents.toArray⟩
      handle.flush
      return true

/-- Run the tool on the words of a command line. -/
def run (words : List String) : IO UInt32 := do
  let report ← Tool.run files ("presence_table" :: words.map Bytes.ofString)
  let stderr ← IO.getStderr
  stderr.write ⟨report.stderr.toArray⟩
  stderr.flush
  let stdout ← IO.getStdout
  stdout.write ⟨report.stdout.toArray⟩
  stdout.flush
  return report.exitStatus

end Program

end PresenceTable

/-- The entry point of the program. -/
def main (words : List String) : IO UInt32 := PresenceTable.Program.run words
