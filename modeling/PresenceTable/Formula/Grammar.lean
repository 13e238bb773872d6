/-
  PresenceTable.Formula.Grammar
  ─────────────────────────────
  **THE GRAMMAR OF CONDITIONS.**

      disjunction ::= disjunction `||` conjunction | conjunction
      conjunction ::= conjunction `&&` unary       | unary
      unary       ::= `!` unary                    | primary
      primary     ::= NAME                         | `(` disjunction `)`

  `Derives rank word f` says that the symbols `word` form a phrase of the
  given rank and that `f` is its tree.  The rules say all there is to say
  about precedence and association: `!` binds tightest, `&&` binds tighter
  than `||`, and both associate to the left.  Nothing here says how a
  phrase is found.
-/
import PresenceTable.Formula.Basic

namespace PresenceTable

/-- The kinds of phrases, from the loosest to the tightest. -/
inductive Rank where
  | disjunction
  | conjunction
  | unary
  | primary
  deriving DecidableEq, Repr

/-- The phrases of the grammar and their trees. -/
inductive Derives : Rank → List Symbol → Formula → Prop where
  | name (n : Name) : Derives .primary [.name n] (.var n)
  | paren {word : List Symbol} {f : Formula} :
      Derives .disjunction word f → Derives .primary (.opening :: (word ++ [.closing])) f
  | ofPrimary {word : List Symbol} {f : Formula} :
      Derives .primary word f → Derives .unary word f
  | bang {word : List Symbol} {f : Formula} :
      Derives .unary word f → Derives .unary (.bang :: word) (.neg f)
  | ofUnary {word : List Symbol} {f : Formula} :
      Derives .unary word f → Derives .conjunction word f
  | and {left right : List Symbol} {f g : Formula} :
      Derives .conjunction left f → Derives .unary right g →
        Derives .conjunction (left ++ .and :: right) (.conj f g)
  | ofConjunction {word : List Symbol} {f : Formula} :
      Derives .conjunction word f → Derives .disjunction word f
  | or {left right : List Symbol} {f g : Formula} :
      Derives .disjunction left f → Derives .conjunction right g →
        Derives .disjunction (left ++ .or :: right) (.disj f g)

end PresenceTable
