/-
  PresenceTable.Formula.Elimination
  ─────────────────────────────────
  **ELIMINATING MODULE VARIABLES.**

  A variable of three states can be set to "module", and `X_MODULE` is the
  variable which says that `X` is.  If `X` has another type it can not be
  a module, and `X_MODULE` never holds.  Elimination puts `bot` for the
  variables that can not hold, keeps the other variables, removes every
  negation sign, and leaves out the disjuncts that became `bot`.

  Main results:
    * `moduleBase?_eq_some_iff` — a name is a module variable exactly when
      it is another name with the suffix `_MODULE`;
    * `eval_eliminate` — elimination means what the condition without its
      negation signs means when the erased variables are not set.
-/
import PresenceTable.Formula.Basic

namespace PresenceTable

/-! ## §1. Module variables. -/

/-- What distinguishes a module variable from the variable it belongs to. -/
def moduleSuffix : Bytes := "_MODULE"

/-- The variable to which a module variable belongs. -/
def Name.moduleBase? (n : Name) : Option Name :=
  let base := n.val.take (n.val.length - moduleSuffix.length)
  if h : moduleSuffix.isSuffixOf n.val ∧ base ≠ [] then some ⟨base, h.2⟩ else none

theorem Name.moduleBase?_eq_some_iff {n base : Name} :
    n.moduleBase? = some base ↔ n.val = base.val ++ moduleSuffix := by
  unfold moduleBase?
  dsimp only
  constructor
  · intro h
    split at h
    · next hn =>
      cases h
      obtain ⟨t, ht⟩ := List.isSuffixOf_iff_suffix.1 hn.1
      simp [← ht]
    · cases h
  · intro h
    have hbase : n.val.take (n.val.length - moduleSuffix.length) = base.val := by
      simp [h]
    have hcond : moduleSuffix.isSuffixOf n.val
        ∧ n.val.take (n.val.length - moduleSuffix.length) ≠ [] :=
      ⟨List.isSuffixOf_iff_suffix.2 ⟨base.val, h.symm⟩, hbase ▸ base.property⟩
    rw [dif_pos hcond]
    exact congrArg some (Subtype.ext hbase)

/-! ## §2. Elimination. -/

namespace Formula

/-- A condition after the erased variables and all negation signs are gone. -/
def eliminate (erased : Name → Bool) : Formula → Formula
  | .bot => .bot
  | .var n => if erased n then .bot else .var n
  | .neg f => f.eliminate erased
  | .conj f g => .conj (f.eliminate erased) (g.eliminate erased)
  | .disj f g => disjoin (f.eliminate erased) (g.eliminate erased)

/-- A condition without its negation signs. -/
def positive : Formula → Formula
  | .bot => .bot
  | .var n => .var n
  | .neg f => f.positive
  | .conj f g => .conj f.positive g.positive
  | .disj f g => .disj f.positive g.positive

/-- **Meaning of elimination.** -/
theorem eval_eliminate (erased : Name → Bool) (v : Name → Bool) (f : Formula) :
    (f.eliminate erased).eval v = f.positive.eval (fun n => !erased n && v n) := by
  induction f with
  | bot => rfl
  | var n => cases h : erased n <;> simp [eliminate, positive, eval, h]
  | neg f ih => exact ih
  | conj f g ihf ihg => simp [eliminate, positive, eval, ihf, ihg]
  | disj f g ihf ihg => simp [eliminate, positive, eval, eval_disjoin, ihf, ihg]

end Formula

end PresenceTable
