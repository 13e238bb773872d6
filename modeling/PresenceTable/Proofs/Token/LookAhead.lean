/-
  PresenceTable.Proofs.Token.LookAhead
  ────────────────────────────────────
  **LOOKING AHEAD CHANGES NOTHING.**

  A scanner that has shown a token keeps it, and the cursor behind it stands
  in another place than that of a scanner that has not.  A scanner that has
  shown an error keeps nothing, but its cursor stands behind white space that
  it skipped, and comes upon the error again.  What is handed out from then
  on is the same in any case.  `upcoming s n` is what `s` hands out after
  `n` other answers when nobody looks ahead:

      s.peek.2.upcoming n  =  s.upcoming n

  So it is enough to know what a scanner hands out that shows nothing, and
  these are the tokens that a cursor finds, and then its stop, for ever.

  Main results:
    * `Cursor.next_of_next_error` — an error is come upon again;
    * `next_peek` / `peek_peek` — the next answer after a look ahead;
    * `upcoming_peek` — what follows a look ahead;
    * `upcoming_start` — what a new scanner hands out;
    * `handedOut_eq` — the answers in a run, by those without looks ahead;
    * `handedOut_start` — looking ahead is not noticed.
-/
import PresenceTable.Token.Scanner

namespace PresenceTable

/-! ## §1. Stopping for ever. -/

namespace Cursor

theorem rest_skipSpace (c : Cursor) : c.skipSpace.rest = c.rest.dropWhile Bytes.isSpace := by
  have hcut := List.takeWhile_append_dropWhile (p := Bytes.isSpace) (l := c.rest)
  have hdrop : (c.rest.takeWhile Bytes.isSpace ++ c.rest.dropWhile Bytes.isSpace).drop
      (c.rest.takeWhile Bytes.isSpace).length = c.rest.dropWhile Bytes.isSpace := List.drop_left
  rw [hcut] at hdrop
  exact hdrop

theorem skipSpace_skipSpace (c : Cursor) : c.skipSpace.skipSpace = c.skipSpace := by
  have hnone : c.skipSpace.rest.takeWhile Bytes.isSpace = [] := by
    rw [rest_skipSpace]
    have hhead := List.head?_dropWhile_not Bytes.isSpace c.rest
    cases hrest : c.rest.dropWhile Bytes.isSpace with
    | nil => rfl
    | cons b rest =>
        simp only [hrest, List.head?_cons] at hhead
        rw [List.takeWhile_cons, hhead]
        rfl
  show c.skipSpace.advance (c.skipSpace.rest.takeWhile Bytes.isSpace).length = _
  rw [hnone]
  rfl

theorem take_of_error {c after : Cursor} {stop : Stop} (h : c.take = (.error stop, after)) :
    after = c := by
  unfold take at h
  split at h
  · cases h
    rfl
  · split at h
    · cases h
    · cases h
      rfl

/-- **A cursor that stops has stopped for ever.** -/
theorem next_of_next_error {c after : Cursor} {stop : Stop} (h : c.next = (.error stop, after)) :
    after.next = (.error stop, after) := by
  have hafter : after = c.skipSpace := take_of_error h
  rw [hafter] at h ⊢
  unfold next at h ⊢
  rw [skipSpace_skipSpace]
  exact h

end Cursor

/-- The answer with the given number, counted from 0: a token, or the stop
when there are no more tokens. -/
def TokenStream.answer (stream : TokenStream) (n : Nat) : Except Stop Token :=
  match stream.tokens[n]? with
  | some t => .ok t
  | none => .error stream.stop

/-! ## §2. What a scanner hands out. -/

namespace Scanner

/-- A scanner that shows nothing asks its cursor. -/
theorem next_of_cursor (c : Cursor) :
    (Scanner.mk c none).next = (c.next.1, Scanner.mk c.next.2 none) :=
  rfl

/-- **After a look ahead** the next token is handed out as it would have been
without.  When an error was shown this is because the cursor stops there
again. -/
theorem next_peek (s : Scanner) : s.peek.2.next = s.next := by
  obtain ⟨c, shown⟩ := s
  cases shown with
  | some answer => rfl
  | none =>
      unfold peek
      dsimp only
      rw [next_of_cursor c]
      rcases hnext : c.next with ⟨(position | error) | t, after⟩
      · rfl
      · rw [next_of_cursor, Cursor.next_of_next_error hnext]
      · rfl

/-- Looking twice shows the same and changes nothing more. -/
theorem peek_peek (s : Scanner) : s.peek.2.peek = s.peek := by
  obtain ⟨c, shown⟩ := s
  cases shown with
  | some answer => rfl
  | none =>
      unfold peek
      dsimp only
      rcases hnext : c.next with ⟨(position | error) | t, after⟩
      · rfl
      · dsimp only
        rw [Cursor.next_of_next_error hnext]
      · rfl

/-- What the scanner hands out after this number of other answers, when
nobody looks ahead. -/
def upcoming (s : Scanner) : Nat → Except Stop Token
  | 0 => s.next.1
  | n + 1 => s.next.2.upcoming n

/-- **What a scanner hands out after a look ahead** is what it would have
handed out without. -/
theorem upcoming_peek (s : Scanner) (n : Nat) : s.peek.2.upcoming n = s.upcoming n := by
  cases n with
  | zero =>
      show s.peek.2.next.1 = s.next.1
      rw [next_peek]
  | succ n =>
      show s.peek.2.next.2.upcoming n = s.next.2.upcoming n
      rw [next_peek]

/-- What is shown is what is handed out next. -/
theorem peek_fst (s : Scanner) : s.peek.1 = s.next.1 := by
  obtain ⟨c, shown⟩ := s
  cases shown with
  | some answer => rfl
  | none =>
      unfold peek next
      dsimp only
      rcases c.next with ⟨(position | error) | t, after⟩ <;> rfl

/-- A scanner that shows nothing hands out what its cursor finds. -/
theorem upcoming_of_cursor (n : Nat) :
    ∀ c : Cursor, (Scanner.mk c none).upcoming n = c.tokens.answer n := by
  induction n with
  | zero =>
      intro c
      show c.next.1 = _
      rcases hnext : c.next with ⟨stop | t, after⟩
      · rw [Cursor.tokens_of_next_error hnext]
        rfl
      · rw [Cursor.tokens_of_next_ok hnext]
        rfl
  | succ n ih =>
      intro c
      show (Scanner.mk c.next.2 none).upcoming n = _
      rw [ih]
      rcases hnext : c.next with ⟨stop | t, after⟩
      · -- the cursor stays where it is, and stops there again
        have hagain := Cursor.next_of_next_error hnext
        rw [Cursor.tokens_of_next_error hnext, Cursor.tokens_of_next_error hagain]
        rfl
      · rw [Cursor.tokens_of_next_ok hnext]
        rfl

/-- **What a new scanner hands out** are the tokens of its text, one after
the other, and then the stop behind them, for ever. -/
theorem upcoming_start (text : Bytes) (line : UInt32) (n : Nat) :
    (start text line).upcoming n = (TokenStream.ofText text line).answer n :=
  upcoming_of_cursor n (Cursor.start text line)

/-! ## §3. Runs. -/

/-- What a scanner can be asked for. -/
inductive Call where
  /-- The next token, which is handed out. -/
  | next
  /-- The next token, which is only shown. -/
  | peek
  deriving DecidableEq, Repr

/-- The scanner after a call. -/
def call (s : Scanner) : Call → Scanner
  | .next => s.next.2
  | .peek => s.peek.2

/-- The scanner after several calls. -/
def callAll (s : Scanner) (calls : List Call) : Scanner := calls.foldl call s

/-- What was handed out during the calls, in order. -/
def handedOut (s : Scanner) : List Call → List (Except Stop Token)
  | [] => []
  | .next :: calls => s.next.1 :: s.next.2.handedOut calls
  | .peek :: calls => s.peek.2.handedOut calls

/-- **What is handed out in a run** is what would be handed out without the
looks ahead in it. -/
theorem handedOut_eq (calls : List Call) :
    ∀ s : Scanner, s.handedOut calls = (List.range (calls.count .next)).map s.upcoming := by
  induction calls with
  | nil => intro s; rfl
  | cons c calls ih =>
      intro s
      cases c with
      | next =>
          rw [List.count_cons_self, List.range_succ_eq_map, List.map_cons, List.map_map]
          show s.next.1 :: s.next.2.handedOut calls = _
          rw [ih]
          rfl
      | peek =>
          rw [List.count_cons_of_ne (by decide)]
          show s.peek.2.handedOut calls = _
          rw [ih, funext (upcoming_peek s)]

theorem callAll_append (s : Scanner) (calls later : List Call) :
    s.callAll (calls ++ later) = (s.callAll calls).callAll later :=
  List.foldl_append

/-- Looking ahead any number of times leaves what is handed out next. -/
theorem upcoming_callAll_peeks (k n : Nat) :
    ∀ s : Scanner, (s.callAll (List.replicate k .peek)).upcoming n = s.upcoming n := by
  induction k with
  | zero => intro s; rfl
  | succ k ih =>
      intro s
      show (s.peek.2.callAll (List.replicate k .peek)).upcoming n = _
      rw [ih, upcoming_peek]

/-- **Looking ahead is not noticed.**  Whatever a scanner is asked for, it
hands out the tokens of its text in order, and then the stop behind them for
ever.  What it shows at any moment is what it hands out next, however often
it is asked to show more before; and what it hands out later does not change
by its being asked to show something. -/
theorem handedOut_start (text : Bytes) (line : UInt32) :
    (∀ calls : List Call, (start text line).handedOut calls
        = (List.range (calls.count .next)).map (TokenStream.ofText text line).answer)
      ∧ (∀ (calls : List Call) (k : Nat),
          ((start text line).callAll calls).peek.1
            = ((start text line).callAll (calls ++ List.replicate k .peek)).next.1)
      ∧ ∀ calls later : List Call,
          ((start text line).callAll (calls ++ [.peek])).handedOut later
            = ((start text line).callAll calls).handedOut later := by
  refine ⟨fun calls => ?_, fun calls k => ?_, fun calls later => ?_⟩
  · rw [handedOut_eq, funext (upcoming_start text line)]
  · rw [peek_fst, callAll_append]
    exact (upcoming_callAll_peeks k 0 _).symm
  · rw [callAll_append, handedOut_eq, handedOut_eq]
    show List.map ((start text line).callAll calls).peek.2.upcoming _ = _
    rw [funext (upcoming_peek _)]

/-- A stop that is shown before it is handed out, and then again. -/
example : (start "A  $" 3).handedOut [.peek, .next, .peek, .peek, .next, .next]
    = [.ok ⟨.name ⟨"A", by decide⟩, ⟨3, 1⟩⟩, .error (.failure ⟨⟨3, 4⟩, .strayByte 36⟩),
        .error (.failure ⟨⟨3, 4⟩, .strayByte 36⟩)] := by
  rfl

end Scanner

end PresenceTable
