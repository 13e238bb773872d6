/-
  PresenceTable.Proofs.Token.Cursor
  ─────────────────────────────────
  **TOKENS DO NOT DEPEND ON THE LINE.**

  A cursor carries the number of its line only to put it into positions.
  `onLine` puts another number there, and scanning commutes with it: what
  the tokens of a text are, and whether they reach its end, is a matter of
  the text alone.

  Main results:
    * `ofText_onLine` — the tokens of one text on two lines.
-/
import PresenceTable.Token.Cursor

namespace PresenceTable

/-! ## §1. Another line. -/

/-- The same place on another line. -/
def Position.onLine (p : Position) (line : UInt32) : Position := { p with line }

/-- The same error on another line. -/
def SyntaxError.onLine (e : SyntaxError) (line : UInt32) : SyntaxError :=
  { e with position := e.position.onLine line }

/-- The same token on another line. -/
def Token.onLine (t : Token) (line : UInt32) : Token :=
  { t with position := t.position.onLine line }

/-- The same stop on another line. -/
def Stop.onLine : Stop → UInt32 → Stop
  | .endOfText position, line => .endOfText (position.onLine line)
  | .failure error, line => .failure (error.onLine line)

/-- The same tokens on another line. -/
def TokenStream.onLine (stream : TokenStream) (line : UInt32) : TokenStream :=
  ⟨stream.tokens.map (·.onLine line), stream.stop.onLine line⟩

/-- The same cursor on another line. -/
def Cursor.onLine (c : Cursor) (line : UInt32) : Cursor := { c with line }

theorem TokenStream.map_symbol_onLine (stream : TokenStream) (line : UInt32) :
    (stream.onLine line).tokens.map Token.symbol = stream.tokens.map Token.symbol := by
  unfold onLine
  rw [List.map_map]
  rfl

theorem Stop.onLine_eq_endOfText_iff (stop : Stop) (line : UInt32) :
    (∃ position, stop.onLine line = .endOfText position)
      ↔ ∃ position, stop = .endOfText position := by
  cases stop <;> simp [onLine]

/-! ## §2. Scanning on another line. -/

namespace Cursor

/-- The same answer on another line. -/
def answerOnLine (line : UInt32) :
    Except Stop Token × Cursor → Except Stop Token × Cursor
  | (.ok t, c) => (.ok (t.onLine line), c.onLine line)
  | (.error stop, c) => (.error (stop.onLine line), c.onLine line)

theorem take_onLine (c : Cursor) (line : UInt32) :
    (c.onLine line).take = answerOnLine line c.take := by
  have hrest : (c.onLine line).rest = c.rest := rfl
  unfold take
  rw [hrest]
  cases c.rest with
  | nil => rfl
  | cons b rest =>
      dsimp only
      cases Symbol.scan b rest with
      | error reason => rfl
      | ok symbol => rfl

theorem next_onLine (c : Cursor) (line : UInt32) :
    (c.onLine line).next = answerOnLine line c.next := by
  show (c.skipSpace.onLine line).take = _
  rw [take_onLine]
  rfl

theorem tokens_onLine (line : UInt32) (c : Cursor) :
    (c.onLine line).tokens = c.tokens.onLine line := by
  -- each token leaves fewer bytes, so the induction is on how many are left
  induction hk : c.rest.length using Nat.strongRecOn generalizing c with
  | ind k ih =>
      subst hk
      have hline := next_onLine c line
      rcases hnext : c.next with ⟨stop | t, after⟩
      · rw [hnext] at hline
        rw [tokens_of_next_error hnext, tokens_of_next_error hline]
        rfl
      · rw [hnext] at hline
        have hlt := length_rest_lt_of_next_ok hnext
        rw [tokens_of_next_ok hnext, tokens_of_next_ok hline, ih _ hlt after rfl]
        rfl

end Cursor

/-- **The tokens of a text on two lines** differ in nothing but the line. -/
theorem TokenStream.ofText_onLine (text : Bytes) (line line' : UInt32) :
    TokenStream.ofText text line' = (TokenStream.ofText text line).onLine line' :=
  Cursor.tokens_onLine line' (Cursor.start text line)

end PresenceTable
