/-
  PresenceTable.Store.Read
  ────────────────────────
  **READING INTO THE STORE.**

  A condition is stored while it is read, and its operands are known by
  their ids.  A name is stored when it is read, a negation or a conjunction
  together with its right operand, and a disjunction when the next symbol
  shows that its right operand does not go on.  Whatever is stored stays
  there, also when the text is refused further on.

  A token is looked for when the one in front of it has been dealt with.
-/
import PresenceTable.Store.Basic
import PresenceTable.Formula.Reader

namespace PresenceTable

namespace Store

/-! ## §1. Operands. -/

/-- The id of an operand under a number of negation signs. -/
def negate (s : Store) (operand : NodeId) : Nat → NodeId × Store
  | 0 => (operand, s)
  | n + 1 =>
    let (negated, s) := s.negate operand n
    s.intern (.neg negated)

/-- The id of an operand under the negation signs and, with what is on its
left, under the conjunction that waits for it. -/
def complete (s : Store) (level : Level NodeId) (operand : NodeId) : NodeId × Store :=
  let (negated, s) := s.negate operand level.negations
  match level.conjunct with
  | none => (negated, s)
  | some left => s.intern (.conj left negated)

/-- The id of an operand with what stands left of the pending `||`, if there
is one. -/
def join (s : Store) (disjunct : Option NodeId) (operand : NodeId) : NodeId × Store :=
  match disjunct with
  | none => (operand, s)
  | some left => s.intern (.disj left operand)

/-- An operand is finished at a level. -/
def supply (s : Store) (level : Level NodeId) (operand : NodeId)
    (enclosing : List (Level NodeId)) : Reading NodeId × Store :=
  let (completed, s) := s.complete level operand
  (.having level.disjunct completed enclosing, s)

/-! ## §2. One token. -/

/-- Read one more token. -/
def readToken (s : Store) :
    Reading NodeId → Token → Except SyntaxError (Reading NodeId) × Store
  | .wanting level enclosing, token =>
    match token.symbol with
    | .name n =>
      let (operand, s) := s.intern (.var n)
      let (reading, s) := s.supply level operand enclosing
      (.ok reading, s)
    | .bang => (.ok (.wanting { level with negations := level.negations + 1 } enclosing), s)
    | .opening => (.ok (.wanting {} (level :: enclosing)), s)
    | found => (.error ⟨token.position, .unexpected found⟩, s)
  | .having disjunct operand enclosing, token =>
    match token.symbol, enclosing with
    | .and, _ => (.ok (.wanting { disjunct, conjunct := some operand } enclosing), s)
    | .or, _ =>
      let (left, s) := s.join disjunct operand
      (.ok (.wanting { disjunct := some left } enclosing), s)
    | .closing, level :: outer =>
      let (inner, s) := s.join disjunct operand
      let (reading, s) := s.supply level inner outer
      (.ok reading, s)
    | found, [] => (.error ⟨token.position, .trailing found⟩, (s.join disjunct operand).2)
    | found, _ :: _ =>
      (.error ⟨token.position, .unclosed (some found)⟩, (s.join disjunct operand).2)

/-- The id of the condition, when no further token follows. -/
def readStop (s : Store) : Reading NodeId → Stop → Except SyntaxError NodeId × Store
  | .wanting _ _, .endOfText position => (.error ⟨position, .endOfCondition⟩, s)
  | .wanting _ _, .failure error => (.error error, s)
  | .having _ _ _, .failure error => (.error error, s)
  | .having disjunct operand [], .endOfText _ =>
    let (id, s) := s.join disjunct operand
    (.ok id, s)
  | .having disjunct operand (_ :: _), .endOfText position =>
    (.error ⟨position, .unclosed none⟩, (s.join disjunct operand).2)

/-! ## §3. Whole conditions. -/

/-- Go on reading at a cursor. -/
def readFrom (s : Store) (reading : Reading NodeId) (c : Cursor) :
    Except SyntaxError NodeId × Store :=
  match h : c.next with
  | (.error stop, _) => s.readStop reading stop
  | (.ok token, after) =>
    match s.readToken reading token with
    | (.error error, s) => (.error error, s)
    | (.ok reading, s) =>
      have := Cursor.length_rest_lt_of_next_ok h
      s.readFrom reading after
termination_by c.rest.length

/-- The id of the condition that a text on the given line spells. -/
def read (s : Store) (text : Bytes) (line : UInt32) : Except SyntaxError NodeId × Store :=
  s.readFrom .start (Cursor.start text line)

theorem readFrom_of_next_error {s : Store} {reading : Reading NodeId} {c after : Cursor}
    {stop : Stop} (h : c.next = (.error stop, after)) :
    s.readFrom reading c = s.readStop reading stop := by
  rw [readFrom]
  split
  · next h' => rw [h] at h'; cases h'; rfl
  · next h' => rw [h] at h'; cases h'

theorem readFrom_of_next_ok {s : Store} {reading : Reading NodeId} {c after : Cursor}
    {token : Token} (h : c.next = (.ok token, after)) :
    s.readFrom reading c
      = match s.readToken reading token with
        | (.error error, s) => (.error error, s)
        | (.ok reading, s) => s.readFrom reading after := by
  rw [readFrom]
  split
  · next h' => rw [h] at h'; cases h'
  · next h' => rw [h] at h'; cases h'; rfl

end Store

end PresenceTable
