/-
  PresenceTable.Proofs.Formula.Elimination
  ────────────────────────────────────────
  **WHAT ELIMINATION DOES TO A TREE.**

  The names that a table of types erases are `B_MODULE`, where `B` is
  declared with another type than `tristate`; `TypeTable.Erases` says so
  without computing the base of a name.  Erasing the names of one table and
  then those of another is erasing the names of both.

  Main results:
    * `erases_eq_true_iff` — the computed test decides `Erases`;
    * `positive_of_negationFree` — a tree without negation signs is its own
      positive part;
    * `eliminate_eliminate` — two eliminations are one.
-/
import Mathlib.Data.Set.Insert
import PresenceTable.TypeTable

namespace PresenceTable

/-! ## §1. Erased names. -/

/-- The name is `B_MODULE`, where `B` is declared with another type than
`tristate`. -/
def TypeTable.Erases (t : TypeTable) (name : Name) : Prop :=
  ∃ (base : Name) (type : Bytes), name.val = base.val ++ moduleSuffix
    ∧ t.typeOf? base.val = some type ∧ type ≠ tristate

theorem TypeTable.erases_eq_true_iff (t : TypeTable) (name : Name) :
    t.erases name = true ↔ t.Erases name := by
  rw [erases_iff]
  unfold Erases
  simp only [Name.moduleBase?_eq_some_iff]

theorem TypeTable.erases_eq_false_iff (t : TypeTable) (name : Name) :
    t.erases name = false ↔ ¬ t.Erases name := by
  rw [← erases_eq_true_iff, Bool.not_eq_true]

theorem TypeTable.erases_eq (t : TypeTable) : (t.erases · = true) = t.Erases :=
  funext fun n => propext (t.erases_eq_true_iff n)

/-- The bases that a table declares with another type than `tristate`. -/
def TypeTable.erasedBases (t : TypeTable) : Set Bytes :=
  {base | ∃ type, t.typeOf? base = some type ∧ type ≠ tristate}

theorem TypeTable.erasedBases_empty : empty.erasedBases = ∅ := by
  ext base
  constructor
  · rintro ⟨type, htype, -⟩
    simp [typeOf?, empty] at htype
  · rintro ⟨⟩

/-- A declaration adds its base, unless the type is `tristate`. -/
theorem TypeTable.erasedBases_declare (t : TypeTable) (name : Bytes) {type : Bytes}
    (h : type ≠ tristate) : (t.declare name type).erasedBases = t.erasedBases ∪ {name} := by
  ext base
  show (∃ other, (t.declare name type).typeOf? base = some other ∧ other ≠ tristate)
    ↔ (∃ other, t.typeOf? base = some other ∧ other ≠ tristate) ∨ base = name
  rw [typeOf?_declare]
  by_cases hbase : name = base
  · simp [hbase, h]
  · simp [hbase, Ne.symm hbase]

theorem TypeTable.erases_iff_erasedBases (t : TypeTable) (name : Name) :
    t.Erases name
      ↔ ∃ base : Name, name.val = base.val ++ moduleSuffix ∧ base.val ∈ t.erasedBases := by
  constructor
  · rintro ⟨base, type, hname, htype, hother⟩
    exact ⟨base, hname, type, htype, hother⟩
  · rintro ⟨base, hname, type, htype, hother⟩
    exact ⟨base, type, hname, htype, hother⟩

/-- A table that declares the bases of two others erases their names. -/
theorem TypeTable.erases_of_union {t₁ t₂ t₁₂ : TypeTable}
    (h : t₁₂.erasedBases = t₁.erasedBases ∪ t₂.erasedBases) (name : Name) :
    t₁₂.erases name = (t₁.erases name || t₂.erases name) := by
  rw [Bool.eq_iff_iff, Bool.or_eq_true]
  simp only [erases_eq_true_iff, erases_iff_erasedBases, h, Set.mem_union]
  constructor
  · rintro ⟨base, hname, h₁ | h₂⟩
    · exact .inl ⟨base, hname, h₁⟩
    · exact .inr ⟨base, hname, h₂⟩
  · rintro (⟨base, hname, h₁⟩ | ⟨base, hname, h₂⟩)
    · exact ⟨base, hname, .inl h₁⟩
    · exact ⟨base, hname, .inr h₂⟩

/-! ## §2. Trees without negation signs. -/

namespace Formula

/-- There is no negation sign in the tree. -/
def NegationFree : Formula → Prop
  | .bot | .var _ => True
  | .neg _ => False
  | .conj f g | .disj f g => f.NegationFree ∧ g.NegationFree

theorem positive_of_negationFree {f : Formula} (h : f.NegationFree) : f.positive = f := by
  induction f with
  | bot => rfl
  | var n => rfl
  | neg f ih => exact absurd h id
  | conj f g ihf ihg | disj f g ihf ihg =>
      rw [positive, ihf h.1, ihg h.2]

/-- **Meaning of elimination, for the names that a table erases.**  The
erased variables are not set, and the others are as before. -/
theorem eval_eliminate_erases (types : TypeTable) (f : Formula) {v v' : Name → Bool}
    (herased : ∀ n, types.Erases n → v' n = false)
    (hkept : ∀ n, ¬ types.Erases n → v' n = v n) :
    (f.eliminate types.erases).eval v = f.positive.eval v' := by
  have hv : (fun n => !types.erases n && v n) = v' := by
    funext n
    by_cases h : types.Erases n
    · rw [(types.erases_eq_true_iff n).2 h, herased n h]
      rfl
    · rw [(types.erases_eq_false_iff n).2 h, hkept n h]
      rfl
  rw [eval_eliminate, hv]

/-! ## §3. One elimination after another. -/

theorem bot_disjoin (g : Formula) : disjoin .bot g = g := if_pos rfl

theorem disjoin_bot (f : Formula) : disjoin f .bot = f := by
  unfold disjoin
  by_cases hf : f = .bot
  · rw [if_pos hf, hf]
  · rw [if_neg hf, if_pos rfl]

/-- It does not matter whether `bot` is left out before an elimination or
after it. -/
theorem eliminate_disjoin (erased : Name → Bool) (f g : Formula) :
    (f.disjoin g).eliminate erased = (f.eliminate erased).disjoin (g.eliminate erased) := by
  by_cases hf : f = .bot
  · rw [hf, bot_disjoin]
    exact (bot_disjoin _).symm
  · by_cases hg : g = .bot
    · rw [hg, disjoin_bot]
      exact (disjoin_bot _).symm
    · rw [disjoin, if_neg hf, if_neg hg]
      rfl

/-- **Two eliminations are one**, of the names that either of them erases. -/
theorem eliminate_eliminate (erased erased' : Name → Bool) (f : Formula) :
    (f.eliminate erased).eliminate erased' = f.eliminate fun n => erased n || erased' n := by
  induction f with
  | bot => rfl
  | var n => cases h : erased n <;> simp [eliminate, h]
  | neg f ih => exact ih
  | conj f g ihf ihg =>
      show conj _ _ = conj _ _
      rw [ihf, ihg]
  | disj f g ihf ihg =>
      -- the second pass meets what the first one left of the disjunction
      show ((f.eliminate erased).disjoin (g.eliminate erased)).eliminate erased' = disjoin _ _
      rw [eliminate_disjoin, ihf, ihg]

end Formula

end PresenceTable
