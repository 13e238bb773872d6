/-
  PresenceTable.Token.Scanner
  ───────────────────────────
  **LOOKING AHEAD.**

  A scanner hands out the tokens of a condition one by one and can show
  the next one without handing it out.  A token that it has shown it keeps
  for the next request, and so it does with the end of the text.  An error
  is not kept: the next request comes upon it again.
-/
import PresenceTable.Token.Cursor

namespace PresenceTable

/-- A cursor, and what was shown but not yet handed out: a token, or the
place where the text ends. -/
structure Scanner where
  cursor : Cursor
  shown : Option (Except Position Token) := none

namespace Scanner

/-- A scanner in front of a condition that stands on the given line. -/
def start (text : Bytes) (line : UInt32) : Scanner := { cursor := Cursor.start text line }

/-- The place behind everything that was handed out or shown. -/
def position (s : Scanner) : Position := s.cursor.position

/-- Hand out the next token. -/
def next (s : Scanner) : Except Stop Token × Scanner :=
  match s.shown with
  | some answer => (answer.mapError .endOfText, { s with shown := none })
  | none =>
    let (answer, cursor) := s.cursor.next
    (answer, { cursor })

/-- Show the next token. -/
def peek (s : Scanner) : Except Stop Token × Scanner :=
  match s.shown with
  | some answer => (answer.mapError .endOfText, s)
  | none =>
    match s.cursor.next with
    | (.ok t, cursor) => (.ok t, { cursor, shown := some (.ok t) })
    | (.error (.endOfText position), cursor) =>
      (.error (.endOfText position), { cursor, shown := some (.error position) })
    | (.error (.failure error), cursor) => (.error (.failure error), { cursor })

end Scanner

end PresenceTable
