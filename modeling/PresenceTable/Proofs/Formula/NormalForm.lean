/-
  PresenceTable.Proofs.Formula.NormalForm
  ───────────────────────────────────────
  **WHAT ELIMINATION LEAVES OF A TREE.**

  Elimination works from the leaves up and looks at two operands at a time.
  A disjunct that became `bot` is left out where it meets its neighbour, and
  what takes its place has been treated already; so nothing that elimination
  removes is left at any depth.  `Redex` lists what it removes, `Normal` says
  that a tree has none of it among its parts.

  A tree with nothing to remove comes back as it is, and no other tree does,
  since what comes back is normal.

  Main results:
    * `normal_eliminate` — elimination leaves a normal tree;
    * `eliminate_eq_iff_normal` — which trees it does not change;
    * `names_eliminate`, `length_parts_eliminate_le` — it brings in no names
      and no parts.
-/
import PresenceTable.Formula.Elimination
import PresenceTable.Proofs.Formula.Printing

namespace PresenceTable

namespace Formula

/-! ## §1. Parts. -/

/-- The parts of a tree, each behind its own parts; the tree itself is the
last of them. -/
def parts : Formula → List Formula
  | .bot => [.bot]
  | .var n => [.var n]
  | .neg f => f.parts ++ [.neg f]
  | .conj f g => f.parts ++ g.parts ++ [.conj f g]
  | .disj f g => f.parts ++ g.parts ++ [.disj f g]

theorem self_mem_parts (f : Formula) : f ∈ f.parts := by
  cases f <;> simp [parts]

@[simp] theorem length_parts_neg (f : Formula) :
    (neg f).parts.length = f.parts.length + 1 :=
  List.length_append

@[simp] theorem length_parts_conj (f g : Formula) :
    (conj f g).parts.length = f.parts.length + g.parts.length + 1 := by
  simp [parts, Nat.add_assoc]

@[simp] theorem length_parts_disj (f g : Formula) :
    (disj f g).parts.length = f.parts.length + g.parts.length + 1 := by
  simp [parts, Nat.add_assoc]

/-! ## §2. Normal trees. -/

/-- What elimination removes, when it erases these names. -/
inductive Redex (Erased : Name → Prop) : Formula → Prop where
  /-- A negation. -/
  | neg (f : Formula) : Redex Erased (.neg f)
  /-- A disjunction with the constant `bot` on its left. -/
  | botLeft (g : Formula) : Redex Erased (.disj .bot g)
  /-- A disjunction with the constant `bot` on its right. -/
  | botRight (f : Formula) : Redex Erased (.disj f .bot)
  /-- An erased variable. -/
  | var {n : Name} (h : Erased n) : Redex Erased (.var n)

/-- There is nothing to remove, at any depth. -/
def Normal (Erased : Name → Prop) (f : Formula) : Prop := ∀ g ∈ f.parts, ¬ Redex Erased g

section

variable {Erased : Name → Prop} {f g : Formula} {n : Name}

/-! ### Normal trees, by their tops. -/

@[simp] theorem normal_bot : Normal Erased .bot := by
  intro h hh hredex
  rw [List.mem_singleton.1 hh] at hredex
  cases hredex

@[simp] theorem normal_var : Normal Erased (.var n) ↔ ¬ Erased n := by
  constructor
  · intro h herased
    exact h _ (self_mem_parts _) (.var herased)
  · intro h g hg hredex
    rw [List.mem_singleton.1 hg] at hredex
    cases hredex with
    | var herased => exact h herased

@[simp] theorem not_normal_neg : ¬ Normal Erased (.neg f) :=
  fun h => h _ (self_mem_parts _) (.neg f)

/-- A tree with two operands is normal when these are, and nothing is to be
removed at its top. -/
theorem normal_of_parts_eq {h : Formula} (hparts : h.parts = f.parts ++ g.parts ++ [h]) :
    Normal Erased h ↔ ¬ Redex Erased h ∧ Normal Erased f ∧ Normal Erased g := by
  unfold Normal
  rw [hparts]
  simp only [List.forall_mem_append, List.forall_mem_singleton]
  exact and_comm

@[simp] theorem normal_conj :
    Normal Erased (.conj f g) ↔ Normal Erased f ∧ Normal Erased g := by
  rw [normal_of_parts_eq (h := .conj f g) rfl]
  exact and_iff_right nofun

@[simp] theorem normal_disj :
    Normal Erased (.disj f g)
      ↔ (f ≠ .bot ∧ g ≠ .bot) ∧ Normal Erased f ∧ Normal Erased g := by
  rw [normal_of_parts_eq (h := .disj f g) rfl]
  refine and_congr_left fun _ => ⟨fun hredex => ⟨?_, ?_⟩, ?_⟩
  · rintro rfl
    exact hredex (.botLeft g)
  · rintro rfl
    exact hredex (.botRight f)
  · rintro ⟨hf, hg⟩ hredex
    cases hredex with
    | botLeft => exact hf rfl
    | botRight => exact hg rfl

/-! ## §3. Elimination leaves a normal tree. -/

/-- What takes the place of a disjunction is one of its operands, or has
none that is `bot`. -/
theorem normal_disjoin (hf : Normal Erased f) (hg : Normal Erased g) :
    Normal Erased (f.disjoin g) := by
  unfold disjoin
  by_cases hleft : f = .bot
  · rw [if_pos hleft]
    exact hg
  · rw [if_neg hleft]
    by_cases hright : g = .bot
    · rw [if_pos hright]
      exact hf
    · rw [if_neg hright]
      exact normal_disj.2 ⟨⟨hleft, hright⟩, hf, hg⟩

end

variable (erased : Name → Bool)

/-- **Elimination leaves nothing to remove**, at any depth. -/
theorem normal_eliminate (f : Formula) : (f.eliminate erased).Normal (erased · = true) := by
  induction f with
  | bot => exact normal_bot
  | var n =>
      by_cases herased : erased n = true
      · rw [eliminate, if_pos herased]
        exact normal_bot
      · rw [eliminate, if_neg herased]
        exact normal_var.2 herased
  | neg f ih => exact ih
  | conj f g ihf ihg => exact normal_conj.2 ⟨ihf, ihg⟩
  | disj f g ihf ihg => exact normal_disjoin ihf ihg

/-- A tree with nothing to remove comes back as it is. -/
theorem eliminate_of_normal {f : Formula} (h : f.Normal (erased · = true)) :
    f.eliminate erased = f := by
  induction f with
  | bot => rfl
  | var n => rw [eliminate, if_neg (normal_var.1 h)]
  | neg f ih => exact absurd h not_normal_neg
  | conj f g ihf ihg =>
      obtain ⟨hf, hg⟩ := normal_conj.1 h
      rw [eliminate, ihf hf, ihg hg]
  | disj f g ihf ihg =>
      obtain ⟨⟨hleft, hright⟩, hf, hg⟩ := normal_disj.1 h
      rw [eliminate, ihf hf, ihg hg, disjoin, if_neg hleft, if_neg hright]

/-- **Elimination changes all trees but the normal ones.** -/
theorem eliminate_eq_iff_normal {f : Formula} :
    f.eliminate erased = f ↔ f.Normal (erased · = true) := by
  constructor
  · intro h
    rw [← h]
    exact normal_eliminate erased f
  · exact eliminate_of_normal erased

/-! ## §4. Names and parts. -/

theorem names_disjoin {f g : Formula} {n : Name} (h : n ∈ (f.disjoin g).names) :
    n ∈ f.names ∨ n ∈ g.names := by
  unfold disjoin at h
  split at h
  · exact .inr h
  · split at h
    · exact .inl h
    · exact List.mem_append.1 h

/-- Elimination brings no names in. -/
theorem names_eliminate {erased : Name → Bool} {f : Formula} :
    ∀ n ∈ (f.eliminate erased).names, n ∈ f.names := by
  induction f with
  | bot => intro n hn; cases hn
  | var m =>
      intro n hn
      unfold eliminate at hn
      split at hn
      · cases hn
      · exact hn
  | neg f ih => exact ih
  | conj f g ihf ihg =>
      intro n hn
      rcases List.mem_append.1 hn with hf | hg
      · exact List.mem_append_left _ (ihf n hf)
      · exact List.mem_append_right _ (ihg n hg)
  | disj f g ihf ihg =>
      intro n hn
      rcases names_disjoin hn with hf | hg
      · exact List.mem_append_left _ (ihf n hf)
      · exact List.mem_append_right _ (ihg n hg)

theorem length_parts_disjoin_le (f g : Formula) :
    (f.disjoin g).parts.length ≤ f.parts.length + g.parts.length + 1 := by
  unfold disjoin
  split
  · omega
  · split
    · omega
    · exact Nat.le_of_eq (length_parts_disj f g)

/-- Elimination makes no tree larger. -/
theorem length_parts_eliminate_le (f : Formula) :
    (f.eliminate erased).parts.length ≤ f.parts.length := by
  induction f with
  | bot => exact Nat.le_refl 1
  | var n =>
      rw [eliminate]
      split
      · exact Nat.le_refl 1
      · exact Nat.le_refl 1
  | neg f ih =>
      show (f.eliminate erased).parts.length ≤ _
      rw [length_parts_neg]
      omega
  | conj f g ihf ihg =>
      show (conj (f.eliminate erased) (g.eliminate erased)).parts.length ≤ _
      rw [length_parts_conj, length_parts_conj]
      omega
  | disj f g ihf ihg =>
      -- what a disjunct leaves behind when it goes is smaller still
      have hjoin := length_parts_disjoin_le (f.eliminate erased) (g.eliminate erased)
      show ((f.eliminate erased).disjoin (g.eliminate erased)).parts.length ≤ _
      rw [length_parts_disj]
      omega

end Formula

end PresenceTable
