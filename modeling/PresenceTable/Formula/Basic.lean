/-
  PresenceTable.Formula.Basic
  ───────────────────────────
  **CONDITIONS AS TREES.**

  A condition says for which configurations a file is part of a build.  It
  is a tree of variables under negation, conjunction and disjunction; the
  constant `bot` holds for no configuration.  The written form encloses
  every conjunction and disjunction in parentheses and leaves nothing to
  precedence.

  Main results:
    * `print_conj` / `print_disj` — the written form, operand by operand;
    * `eval_disjoin` — joining by a disjunction that drops the constant
      `bot` means the same as a disjunction.
-/
import PresenceTable.Token.Basic

namespace PresenceTable

/-- A condition on a configuration. -/
inductive Formula where
  /-- Never. -/
  | bot
  /-- The named variable is set. -/
  | var (name : Name)
  /-- The operand does not hold. -/
  | neg (operand : Formula)
  /-- Both operands hold. -/
  | conj (left right : Formula)
  /-- At least one operand holds. -/
  | disj (left right : Formula)
  deriving DecidableEq, Repr

namespace Formula

/-- The written form of a condition, in front of what follows it. -/
def printOnto : Formula → Bytes → Bytes
  | .bot, rest => "false" ++ rest
  | .var n, rest => n.val ++ rest
  | .neg f, rest => "!" ++ f.printOnto rest
  | .conj f g, rest => "(" ++ f.printOnto (" && " ++ g.printOnto (")" ++ rest))
  | .disj f g, rest => "(" ++ f.printOnto (" || " ++ g.printOnto (")" ++ rest))

/-- The written form of a condition. -/
def print (f : Formula) : Bytes := f.printOnto []

theorem printOnto_eq (f : Formula) : ∀ rest : Bytes, f.printOnto rest = f.print ++ rest := by
  unfold print
  induction f with
  | bot => intro rest; simp [printOnto]
  | var n => intro rest; simp [printOnto]
  | neg f ih =>
      intro rest
      simp only [printOnto]
      rw [ih rest, List.append_assoc]
  | conj f g ihf ihg =>
      intro rest
      simp only [printOnto]
      rw [ihf, ihg, ihf (_ ++ g.printOnto _), ihg (_ ++ [])]
      simp
  | disj f g ihf ihg =>
      intro rest
      simp only [printOnto]
      rw [ihf, ihg, ihf (_ ++ g.printOnto _), ihg (_ ++ [])]
      simp

@[simp] theorem print_bot : print .bot = "false" := rfl

@[simp] theorem print_var (n : Name) : print (.var n) = n.val := by
  simp [print, printOnto]

@[simp] theorem print_neg (f : Formula) : print (.neg f) = "!" ++ f.print := rfl

@[simp] theorem print_conj (f g : Formula) :
    print (.conj f g) = "(" ++ f.print ++ " && " ++ g.print ++ ")" := by
  show "(" ++ f.printOnto _ = _
  rw [printOnto_eq, printOnto_eq]
  simp

@[simp] theorem print_disj (f g : Formula) :
    print (.disj f g) = "(" ++ f.print ++ " || " ++ g.print ++ ")" := by
  show "(" ++ f.printOnto _ = _
  rw [printOnto_eq, printOnto_eq]
  simp

/-- Whether a condition holds when `v` says which variables are set. -/
def eval (v : Name → Bool) : Formula → Bool
  | .bot => false
  | .var n => v n
  | .neg f => !f.eval v
  | .conj f g => f.eval v && g.eval v
  | .disj f g => f.eval v || g.eval v

/-- A disjunction in which the constant `bot` is left out, unless both
operands are that constant. -/
def disjoin (f g : Formula) : Formula :=
  if f = .bot then g else if g = .bot then f else .disj f g

theorem eval_disjoin (v : Name → Bool) (f g : Formula) :
    (disjoin f g).eval v = (f.eval v || g.eval v) := by
  unfold disjoin
  split
  · next h => simp [h, eval]
  · split
    · next h => simp [h, eval]
    · rfl

end Formula

end PresenceTable
