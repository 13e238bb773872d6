/-
  PresenceTable.Token.Basic
  ─────────────────────────
  **THE TOKENS OF A CONDITION.**

  A condition is written with names, the operators `!`, `&&` and `||`, and
  parentheses.  A token is one of these symbols together with the place
  where it starts.  Lines and columns are 32-bit numbers; columns count
  bytes from 1.

  `SyntaxError` lists everything that can be wrong with a condition, for
  the scanner and for the reader alike, and `SyntaxError.message` words it.

  Main results:
    * `Symbol.text_ne_nil` — no symbol is written with nothing, so reading
      one makes progress.
-/
import PresenceTable.Bytes

namespace PresenceTable

/-- The name of a variable: any bytes at all, but at least one. -/
abbrev Name := { bytes : Bytes // bytes ≠ [] }

/-- A place in the listing. -/
structure Position where
  line : UInt32
  column : UInt32
  deriving DecidableEq, Repr

/-! ## §1. Symbols. -/

/-- What a condition is made of. -/
inductive Symbol where
  /-- A variable. -/
  | name (name : Name)
  /-- The negation sign `!`. -/
  | bang
  /-- The conjunction sign `&&`. -/
  | and
  /-- The disjunction sign `||`. -/
  | or
  /-- An opening parenthesis. -/
  | opening
  /-- A closing parenthesis. -/
  | closing
  deriving DecidableEq, Repr

namespace Symbol

/-- How a symbol is written. -/
def text : Symbol → Bytes
  | .name n => n.val
  | .bang => "!"
  | .and => "&&"
  | .or => "||"
  | .opening => "("
  | .closing => ")"

theorem text_ne_nil (s : Symbol) : s.text ≠ [] := by
  cases s with
  | name n => exact n.property
  | _ => exact List.cons_ne_nil _ _

end Symbol

/-- A symbol at its place. -/
structure Token where
  symbol : Symbol
  position : Position
  deriving DecidableEq, Repr

/-! ## §2. What can be wrong with a condition. -/

namespace SyntaxError

/-- Why a condition is refused. -/
inductive Reason where
  /-- A byte that begins no symbol. -/
  | strayByte (byte : UInt8)
  /-- One of the two-byte operators is written with a single byte. -/
  | loneOperator (byte : UInt8)
  /-- The condition ends where an operand should stand. -/
  | endOfCondition
  /-- Another symbol stands where an operand should. -/
  | unexpected (found : Symbol)
  /-- A parenthesis is not closed before this symbol, or before the end. -/
  | unclosed (found : Option Symbol)
  /-- A symbol follows the finished condition. -/
  | trailing (found : Symbol)
  deriving DecidableEq, Repr

/-- The wording of a reason. -/
def Reason.message : Reason → Bytes
  | .strayByte b => "unexpected character '" ++ [b] ++ "'"
  | .loneOperator b => "expected '" ++ [b, b] ++ "' but found single '" ++ [b] ++ "'"
  | .endOfCondition => "unexpected end of expression"
  | .unexpected s => "unexpected token '" ++ s.text ++ "'"
  | .unclosed found =>
      "expected ')' closing '(', got '" ++ (found.elim [] Symbol.text) ++ "'"
  | .trailing s => "unexpected token '" ++ s.text ++ "' after formula"

end SyntaxError

/-- A reason together with the place it applies to. -/
structure SyntaxError where
  position : Position
  reason : SyntaxError.Reason
  deriving DecidableEq, Repr

namespace SyntaxError

/-- The wording of an error, without its place. -/
def message (e : SyntaxError) : Bytes := e.reason.message

/-- The wording of an error with its place. -/
def report (e : SyntaxError) : Bytes :=
  Bytes.decimal e.position.line.toNat ++ ": ERROR: " ++ e.message ++ " at column "
    ++ Bytes.decimal e.position.column.toNat

end SyntaxError

end PresenceTable
