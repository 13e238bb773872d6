/-
  PresenceTable.Formula.Reader
  ────────────────────────────
  **READING A CONDITION.**

  The tokens are taken one by one, from the left, and nothing is taken
  back.  Between two tokens the reader either wants an operand or has one.
  What is not finished yet forms levels, one for each open parenthesis and
  one for the whole condition; each level keeps what stands left of a
  pending `||` and of a pending `&&`, and the negation signs that wait for
  their operand.

  An operand is finished as early as the tokens so far allow: a negation
  or a conjunction with its right operand, a disjunction when the next
  symbol shows that its right operand does not go on.  A refusal names the
  error and hands over the finished operands, in the order in which they
  were read.

  Here the operands are trees.  Where conditions are stored while they are
  read, the operands are ids.
-/
import PresenceTable.Formula.Basic
import PresenceTable.Token.Cursor

namespace PresenceTable

/-! ## §1. Unfinished conditions. -/

/-- The unfinished part of a condition between two parentheses, or outside
of all of them, where an operand is wanted. -/
structure Level (Operand : Type) where
  /-- What stands to the left of a pending `||`. -/
  disjunct : Option Operand := none
  /-- What stands to the left of a pending `&&`. -/
  conjunct : Option Operand := none
  /-- The number of negation signs in front of the operand. -/
  negations : Nat := 0
  deriving DecidableEq, Repr

namespace Level

/-- The finished operands of a level, from left to right. -/
def finished (level : Level Formula) : List Formula :=
  level.disjunct.toList ++ level.conjunct.toList

/-- The operand under the negation signs and, with what is on its left,
under the conjunction that waits for it. -/
def complete (level : Level Formula) (operand : Formula) : Formula :=
  let negated := level.negations.repeat Formula.neg operand
  match level.conjunct with
  | none => negated
  | some left => .conj left negated

end Level

/-- The finished operands of nested levels, the innermost of which comes
first, from left to right. -/
def finishedOperands (levels : List (Level Formula)) : List Formula :=
  levels.reverse.flatMap Level.finished

theorem finishedOperands_cons (level : Level Formula) (outer : List (Level Formula)) :
    finishedOperands (level :: outer) = finishedOperands outer ++ level.finished := by
  simp [finishedOperands]

/-- A condition of which some tokens have been read. -/
inductive Reading (Operand : Type) where
  /-- An operand is wanted at this level, inside the given others. -/
  | wanting (level : Level Operand) (enclosing : List (Level Operand))
  /-- An operand has been read; it may stand to the right of a pending
  `||`. -/
  | having (disjunct : Option Operand) (operand : Operand) (enclosing : List (Level Operand))
  deriving DecidableEq, Repr

/-- Why a condition is refused, and what of it was finished by then. -/
structure Refusal where
  error : SyntaxError
  finished : List Formula
  deriving DecidableEq, Repr

/-! ## §2. One token. -/

namespace Reading

/-- Nothing has been read. -/
def start {Operand : Type} : Reading Operand := .wanting {} []

/-- An operand is finished at a level. -/
def supply (level : Level Formula) (operand : Formula) (enclosing : List (Level Formula)) :
    Reading Formula :=
  .having level.disjunct (level.complete operand) enclosing

/-- The operand with what stands left of the pending `||`, if there is one. -/
def join (disjunct : Option Formula) (operand : Formula) : Formula :=
  match disjunct with
  | none => operand
  | some left => .disj left operand

/-- Read one more token. -/
def step : Reading Formula → Token → Except Refusal (Reading Formula)
  | .wanting level enclosing, token =>
    match token.symbol with
    | .name n => .ok (supply level (.var n) enclosing)
    | .bang => .ok (.wanting { level with negations := level.negations + 1 } enclosing)
    | .opening => .ok (.wanting {} (level :: enclosing))
    | found =>
      .error ⟨⟨token.position, .unexpected found⟩, finishedOperands (level :: enclosing)⟩
  | .having disjunct operand enclosing, token =>
    match token.symbol, enclosing with
    | .and, _ => .ok (.wanting { disjunct, conjunct := some operand } enclosing)
    | .or, _ => .ok (.wanting { disjunct := some (join disjunct operand) } enclosing)
    | .closing, level :: outer => .ok (supply level (join disjunct operand) outer)
    | found, [] => .error ⟨⟨token.position, .trailing found⟩, [join disjunct operand]⟩
    | found, _ :: _ =>
      .error ⟨⟨token.position, .unclosed (some found)⟩,
        finishedOperands enclosing ++ [join disjunct operand]⟩

/-- The condition, when no further token follows. -/
def finish : Reading Formula → Stop → Except Refusal Formula
  | .wanting level enclosing, .endOfText position =>
    .error ⟨⟨position, .endOfCondition⟩, finishedOperands (level :: enclosing)⟩
  | .wanting level enclosing, .failure error =>
    .error ⟨error, finishedOperands (level :: enclosing)⟩
  | .having disjunct operand enclosing, .failure error =>
    .error ⟨error, finishedOperands enclosing ++ disjunct.toList ++ [operand]⟩
  | .having disjunct operand [], .endOfText _ => .ok (join disjunct operand)
  | .having disjunct operand enclosing, .endOfText position =>
    .error ⟨⟨position, .unclosed none⟩,
      finishedOperands enclosing ++ [join disjunct operand]⟩

/-- Read the given tokens and then the end. -/
def run (reading : Reading Formula) (stream : TokenStream) : Except Refusal Formula := do
  let reading ← stream.tokens.foldlM step reading
  reading.finish stream.stop

end Reading

/-! ## §3. Whole conditions. -/

namespace Formula

/-- The condition that the tokens spell, or why they spell none. -/
def ofTokens (stream : TokenStream) : Except Refusal Formula := Reading.start.run stream

/-- The condition that a text on the given line spells, or why it spells
none. -/
def ofText (text : Bytes) (line : UInt32) : Except Refusal Formula :=
  ofTokens (TokenStream.ofText text line)

end Formula

end PresenceTable
