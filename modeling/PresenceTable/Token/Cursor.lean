/-
  PresenceTable.Token.Cursor
  ──────────────────────────
  **SCANNING.**

  A cursor stands between two bytes of a condition.  `Cursor.next` skips
  white space and takes the longest symbol that begins there; it stops at
  the end of the text, or in front of a byte that begins no symbol, and
  stays there.  `Cursor.tokens` repeats this to the first stop.

  Main results:
    * `length_rest_lt_of_next_ok` — a token is never empty, so scanning
      ends;
    * `tokens_of_next_ok` / `tokens_of_next_error` — the tokens of a text
      are its first token, followed by the tokens of what comes after it.
-/
import PresenceTable.Token.Basic

namespace PresenceTable

/-! ## §1. The symbol at the front of a text. -/

/-- The symbol with which the text `b :: rest` begins.  A name extends as
far as there are word bytes. -/
def Symbol.scan (b : UInt8) (rest : Bytes) : Except SyntaxError.Reason Symbol :=
  if b = '!'.toUInt8 then .ok .bang
  else if b = '('.toUInt8 then .ok .opening
  else if b = ')'.toUInt8 then .ok .closing
  else if b = '&'.toUInt8 then
    if rest.head? = some b then .ok .and else .error (.loneOperator b)
  else if b = '|'.toUInt8 then
    if rest.head? = some b then .ok .or else .error (.loneOperator b)
  else if Bytes.isWord b then
    .ok (.name ⟨b :: rest.takeWhile Bytes.isWord, List.cons_ne_nil _ _⟩)
  else .error (.strayByte b)

/-! ## §2. Cursors. -/

/-- A place between two bytes of a condition: the line the condition is
on, how many of its bytes lie behind, and which ones lie ahead. -/
structure Cursor where
  line : UInt32
  offset : Nat
  rest : Bytes
  deriving DecidableEq, Repr

/-- Why no further token follows. -/
inductive Stop where
  /-- The text ends at this place. -/
  | endOfText (position : Position)
  /-- No symbol begins here. -/
  | failure (error : SyntaxError)
  deriving DecidableEq, Repr

namespace Cursor

/-- In front of the first byte. -/
def start (text : Bytes) (line : UInt32) : Cursor := ⟨line, 0, text⟩

/-- The place of the next byte.  Columns count from 1, in 32 bits. -/
def position (c : Cursor) : Position := ⟨c.line, UInt32.ofNat (c.offset + 1)⟩

/-- The cursor after `n` more bytes. -/
def advance (c : Cursor) (n : Nat) : Cursor :=
  { c with offset := c.offset + n, rest := c.rest.drop n }

/-- The cursor after the white space in front of it. -/
def skipSpace (c : Cursor) : Cursor := c.advance (c.rest.takeWhile Bytes.isSpace).length

/-- The token that begins right at the cursor, or why there is none, and
where the cursor stands then. -/
def take (c : Cursor) : Except Stop Token × Cursor :=
  match c.rest with
  | [] => (.error (.endOfText c.position), c)
  | b :: rest =>
    match Symbol.scan b rest with
    | .ok symbol => (.ok ⟨symbol, c.position⟩, c.advance symbol.text.length)
    | .error reason => (.error (.failure ⟨c.position, reason⟩), c)

/-- The next token after white space, or why there is none, and where the
cursor stands then. -/
def next (c : Cursor) : Except Stop Token × Cursor := c.skipSpace.take

theorem length_rest_advance (c : Cursor) (n : Nat) :
    (c.advance n).rest.length = c.rest.length - n := by
  simp [advance]

theorem length_rest_skipSpace_le (c : Cursor) :
    c.skipSpace.rest.length ≤ c.rest.length := by
  simp [skipSpace, length_rest_advance]

/-- **Progress.**  Reading a token leaves fewer bytes. -/
theorem length_rest_lt_of_take_ok {c after : Cursor} {t : Token}
    (h : c.take = (.ok t, after)) : after.rest.length < c.rest.length := by
  unfold take at h
  split at h
  · cases h
  · next b rest hrest =>
    split at h
    · next symbol _ =>
      cases h
      have hpos := List.length_pos_iff.2 symbol.text_ne_nil
      rw [length_rest_advance, hrest, List.length_cons]
      omega
    · cases h

theorem length_rest_lt_of_next_ok {c after : Cursor} {t : Token}
    (h : c.next = (.ok t, after)) : after.rest.length < c.rest.length :=
  Nat.lt_of_lt_of_le (length_rest_lt_of_take_ok h) c.length_rest_skipSpace_le

end Cursor

/-! ## §3. All tokens of a text. -/

/-- The tokens in front of the first stop, and that stop. -/
structure TokenStream where
  tokens : List Token
  stop : Stop
  deriving DecidableEq, Repr

namespace Cursor

/-- The tokens from the cursor to the first stop. -/
def tokens (c : Cursor) : TokenStream :=
  match h : c.next with
  | (.ok t, after) =>
    have := length_rest_lt_of_next_ok h
    let later := tokens after
    { later with tokens := t :: later.tokens }
  | (.error stop, _) => ⟨[], stop⟩
termination_by c.rest.length

theorem tokens_of_next_ok {c after : Cursor} {t : Token} (h : c.next = (.ok t, after)) :
    c.tokens = { after.tokens with tokens := t :: after.tokens.tokens } := by
  rw [tokens]
  split
  · next h' => rw [h] at h'; cases h'; rfl
  · next h' => rw [h] at h'; cases h'

theorem tokens_of_next_error {c after : Cursor} {stop : Stop}
    (h : c.next = (.error stop, after)) : c.tokens = ⟨[], stop⟩ := by
  rw [tokens]
  split
  · next h' => rw [h] at h'; cases h'
  · next h' => rw [h] at h'; cases h'; rfl

end Cursor

/-- The tokens of a condition that stands on the given line. -/
def TokenStream.ofText (text : Bytes) (line : UInt32) : TokenStream :=
  (Cursor.start text line).tokens

end PresenceTable
