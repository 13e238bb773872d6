/-
  PresenceTable.Proofs.Store.Elimination
  ──────────────────────────────────────
  **ELIMINATION IN THE STORE IS ELIMINATION OF TREES.**

  The id that elimination answers with stands for the eliminated tree of
  the id it was given.  The store grows while the operands are followed,
  and what was known about an id stays true of the larger store.  The test
  for the constant `bot` compares ids; it is right because a tree has one
  id only.

  What is stored on the way are the stages of the tree, in their order:

      eliminate s id   —   the store afterwards is  s.addAll f.stages

  Main results:
    * `WellFormed.eliminate` — elimination of an id succeeds, with the
      eliminated tree;
    * `WellFormed.eliminate_snd` — the store after an elimination;
    * `eval_formula_eliminate` — what elimination means.
-/
import PresenceTable.Proofs.Formula.Elimination
import PresenceTable.Proofs.Store.Stages

namespace PresenceTable

namespace Store

/-- The answer is an id of the tree in the store that comes with it. -/
def Yields (result : Except Fault NodeId × Store) (f : Formula) : Prop :=
  ∃ id, result.1 = .ok id ∧ result.2.WellFormed ∧ result.2.Denotes id f

/-! ## §1. Disjunctions with the constant `bot`. -/

/-- **Leaving out `bot` by its id is leaving out the tree `bot`.** -/
theorem Consistent.collapse {s : Store} (hs : s.Consistent) {id left right : NodeId}
    {f g : Formula} (hn : s.node? id = some (.disj left right))
    (hf : s.Denotes left f) (hg : s.Denotes right g) :
    ∃ id', s.collapse id = .ok id' ∧ s.Denotes id' (f.disjoin g) := by
  unfold Store.collapse
  rw [hn]
  refine ⟨_, rfl, ?_⟩
  unfold Formula.disjoin
  by_cases hleft : f = .bot
  · rw [if_pos ((hf.eq_botId_iff hs).2 hleft), if_pos hleft]
    exact hg
  · rw [if_neg (mt (hf.eq_botId_iff hs).1 hleft), if_neg hleft]
    by_cases hright : g = .bot
    · rw [if_pos ((hg.eq_botId_iff hs).2 hright), if_pos hright]
      exact hf
    · rw [if_neg (mt (hg.eq_botId_iff hs).1 hright), if_neg hright]
      exact ⟨left, right, hn, hf, hg⟩

/-! ## §2. The way down. -/

/-- Elimination of an id of the tree, by ways down that are no longer than
the bound: the answer is an id of the eliminated tree, and the store that
comes with it is the store with the stages of the tree in it.  There have to
be ids for all nodes, on one side or the other. -/
def Follows (erased : Name → Bool) (bound : Nat) (f : Formula) : Prop :=
  ∀ (s : Store) (id : NodeId), s.WellFormed → s.Denotes id f → id.toNat < bound →
    ((eliminateWithin erased bound s id).2.size ≤ UInt32.size
      ∨ (s.addAll (f.stages erased)).size ≤ UInt32.size) →
    Yields (eliminateWithin erased bound s id) (f.eliminate erased)
      ∧ (eliminateWithin erased bound s id).2 = s.addAll (f.stages erased)

/-- **Two operands, one after the other.**  What is left to do is to combine
their answers, in the store with the stages of both. -/
theorem eliminateBoth_eq {erased : Name → Bool} {bound : Nat} {f g : Formula}
    {combine : Store → NodeId → NodeId → Except Fault NodeId × Store}
    (ihf : Follows erased bound f) (ihg : Follows erased bound g)
    (hgrows : ∀ (s : Store) (left right : NodeId), Grows s (combine s left right).2)
    {s : Store} {left right : NodeId} (hs : s.WellFormed)
    (hf : s.Denotes left f) (hg : s.Denotes right g)
    (hleft : left.toNat < bound) (hright : right.toNat < bound)
    (hroom : (eliminateBoth erased bound s left right combine).2.size ≤ UInt32.size
      ∨ (s.addAll (f.stages erased ++ g.stages erased)).size ≤ UInt32.size) :
    ∃ (u : Store) (left' right' : NodeId),
      u = s.addAll (f.stages erased ++ g.stages erased) ∧ u.WellFormed
        ∧ u.Denotes left' (f.eliminate erased) ∧ u.Denotes right' (g.eliminate erased)
        ∧ eliminateBoth erased bound s left right combine = combine u left' right' := by
  rw [addAll_append] at hroom ⊢
  have hafter :=
    forkClosed_grows.left_both (grows_eliminateWithin erased bound) hgrows s left right
  have hlater := grows_addAll (g.stages erased) (s.addAll (f.stages erased))
  have hkept := grows_eliminateWithin erased bound s left
  -- there is room for the stages of the first operand, since there is room for all
  obtain ⟨⟨left', hok, ht, hleft'⟩, hfirst⟩ := ihf s left hs hf hleft
    (hroom.imp (Nat.le_trans hafter.size_le) (Nat.le_trans hlater.size_le))
  rw [← hfirst] at hroom ⊢
  unfold eliminateBoth at hroom ⊢
  rcases hl : eliminateWithin erased bound s left with ⟨answer, t⟩
  rw [hl] at hok ht hleft' hkept hroom
  cases hok
  dsimp only at hroom ⊢
  -- the second operand is followed in the larger store, where it has the same tree
  have hkept' := grows_eliminateWithin erased bound t right
  have hsecond := ihg t right ht (hg.of_grows hkept) hright
  rcases hr : eliminateWithin erased bound t right with ⟨answer, u⟩
  rw [hr] at hroom hkept' hsecond
  have hroom' : u.size ≤ UInt32.size ∨ (t.addAll (g.stages erased)).size ≤ UInt32.size := by
    refine hroom.imp_left fun hroom => ?_
    cases answer with
    | error fault => exact hroom
    | ok right' => exact Nat.le_trans (hgrows u left' right').size_le hroom
  obtain ⟨⟨right', hok, hu, hright'⟩, hsecond⟩ := hsecond hroom'
  cases hok
  exact ⟨u, left', right', hsecond, hu, hleft'.of_grows hkept', hright', rfl⟩

/-! ### The node above two operands. -/

theorem yields_combineConj {f g : Formula} (t : Store) (left right : NodeId)
    (ht : t.WellFormed) (hf : t.Denotes left f) (hg : t.Denotes right g)
    (hsize : (combineConj t left right).2.size ≤ UInt32.size) :
    Yields (combineConj t left right) (.conj f g) := by
  obtain ⟨hwf, hden⟩ := ht.intern_top (.conj hf hg) hsize
  exact ⟨_, rfl, hwf, hden⟩

theorem yields_combineDisj {f g : Formula} (t : Store) (left right : NodeId)
    (ht : t.WellFormed) (hf : t.Denotes left f) (hg : t.Denotes right g)
    (hsize : (combineDisj t left right).2.size ≤ UInt32.size) :
    Yields (combineDisj t left right) (f.disjoin g) := by
  obtain ⟨hwf, -⟩ := ht.intern_top (.disj hf hg) hsize
  have hstored := ht.node?_intern (.disj left right) hsize
  have hkept := grows_intern t (.disj left right)
  obtain ⟨id, hok, hden⟩ :=
    hwf.toConsistent.collapse hstored (hf.of_grows hkept) (hg.of_grows hkept)
  exact ⟨id, hok, hwf, hden⟩

/-- The node that is interned is the top of a tree that is stored. -/
theorem snd_combineConj {f g : Formula} (t : Store) (left right : NodeId) (ht : t.Consistent)
    (hf : t.Denotes left f) (hg : t.Denotes right g) :
    (combineConj t left right).2 = (t.add (.conj f g)).2 := by
  rw [add, ht.add_of_denotes hf]
  dsimp only
  rw [ht.add_of_denotes hg]
  rfl

theorem snd_combineDisj {f g : Formula} (t : Store) (left right : NodeId) (ht : t.Consistent)
    (hf : t.Denotes left f) (hg : t.Denotes right g) :
    (combineDisj t left right).2 = (t.add (.disj f g)).2 := by
  rw [add, ht.add_of_denotes hf]
  dsimp only
  rw [ht.add_of_denotes hg]
  rfl

/-- It is enough to know what becomes of the answers for two operands: what
is answered in their place, and which stage is stored last. -/
theorem follows_both {erased : Name → Bool} {bound : Nat} {f g h stage : Formula}
    {combine : Store → NodeId → NodeId → Except Fault NodeId × Store}
    (ihf : Follows erased bound f) (ihg : Follows erased bound g)
    (hgrows : ∀ (s : Store) (left right : NodeId), Grows s (combine s left right).2)
    (hyields : ∀ (t : Store) (left right : NodeId), t.WellFormed →
      t.Denotes left (f.eliminate erased) → t.Denotes right (g.eliminate erased) →
      (combine t left right).2.size ≤ UInt32.size → Yields (combine t left right) h)
    (hsnd : ∀ (t : Store) (left right : NodeId), t.Consistent →
      t.Denotes left (f.eliminate erased) → t.Denotes right (g.eliminate erased) →
      (combine t left right).2 = (t.add stage).2)
    {s : Store} {left right : NodeId} (hs : s.WellFormed)
    (hf : s.Denotes left f) (hg : s.Denotes right g)
    (hleft : left.toNat < bound) (hright : right.toNat < bound)
    (hroom : (eliminateBoth erased bound s left right combine).2.size ≤ UInt32.size
      ∨ (s.addAll (f.stages erased ++ g.stages erased ++ [stage])).size ≤ UInt32.size) :
    Yields (eliminateBoth erased bound s left right combine) h
      ∧ (eliminateBoth erased bound s left right combine).2
        = s.addAll (f.stages erased ++ g.stages erased ++ [stage]) := by
  rw [addAll_append] at hroom ⊢
  have hlater := grows_addAll [stage] (s.addAll (f.stages erased ++ g.stages erased))
  obtain ⟨u, left', right', hu, hwf, hleft', hright', heq⟩ :=
    eliminateBoth_eq ihf ihg hgrows hs hf hg hleft hright
      (hroom.imp_right (Nat.le_trans hlater.size_le))
  have hlast : (combine u left' right').2 = u.addAll [stage] :=
    hsnd u left' right' hwf.toConsistent hleft' hright'
  rw [heq, ← hu] at hroom ⊢
  -- both sides are the same store, so there is room in any case
  rw [← hlast, or_self_iff] at hroom
  exact ⟨hyields u left' right' hwf hleft' hright' hroom, hlast⟩

/-! ### All trees. -/

/-- **Elimination in the store follows elimination of trees**, in its answer
and in what it stores. -/
theorem follows (erased : Name → Bool) (f : Formula) :
    ∀ bound : Nat, Follows erased bound f := by
  -- on the tree, over all bounds and stores: both change on the way down
  induction f with
  | bot =>
      intro bound s id hs hf hbound hroom
      obtain ⟨bound, rfl⟩ := Nat.exists_eq_add_one_of_ne_zero (Nat.ne_zero_of_lt hbound)
      rw [eliminateWithin, show s.node? id = _ from hf]
      exact ⟨⟨id, rfl, hs, hf⟩, rfl⟩
  | var n =>
      intro bound s id hs hf hbound hroom
      obtain ⟨bound, rfl⟩ := Nat.exists_eq_add_one_of_ne_zero (Nat.ne_zero_of_lt hbound)
      rw [eliminateWithin, show s.node? id = _ from hf]
      refine ⟨⟨_, rfl, hs, ?_⟩, rfl⟩
      cases herased : erased n with
      | true => simpa [Formula.eliminate, herased] using hs.denotes_botId
      | false => simpa [Formula.eliminate, herased] using hf
  | neg f ih =>
      intro bound s id hs hf hbound hroom
      obtain ⟨bound, rfl⟩ := Nat.exists_eq_add_one_of_ne_zero (Nat.ne_zero_of_lt hbound)
      obtain ⟨operand, hn, hf⟩ := hf
      have hlt := hs.descends id _ hn operand (by simp [Node.children])
      -- the operand answers in place of its negation
      rw [eliminateWithin, hn] at hroom ⊢
      exact ih bound s operand hs hf (by omega) hroom
  | conj f g ihf ihg =>
      intro bound s id hs hf hbound hroom
      obtain ⟨bound, rfl⟩ := Nat.exists_eq_add_one_of_ne_zero (Nat.ne_zero_of_lt hbound)
      obtain ⟨left, right, hn, hf, hg⟩ := hf
      have hleft := hs.descends id _ hn left (by simp [Node.children])
      have hright := hs.descends id _ hn right (by simp [Node.children])
      rw [eliminateWithin_conj hn] at hroom ⊢
      exact follows_both (ihf bound) (ihg bound) grows_combineConj yields_combineConj
        snd_combineConj hs hf hg (by omega) (by omega) hroom
  | disj f g ihf ihg =>
      intro bound s id hs hf hbound hroom
      obtain ⟨bound, rfl⟩ := Nat.exists_eq_add_one_of_ne_zero (Nat.ne_zero_of_lt hbound)
      obtain ⟨left, right, hn, hf, hg⟩ := hf
      have hleft := hs.descends id _ hn left (by simp [Node.children])
      have hright := hs.descends id _ hn right (by simp [Node.children])
      rw [eliminateWithin_disj hn] at hroom ⊢
      exact follows_both (ihf bound) (ihg bound) grows_combineDisj yields_combineDisj
        snd_combineDisj hs hf hg (by omega) (by omega) hroom

/-! ## §3. The answer. -/

/-- **Elimination of an id succeeds, with an id of the eliminated tree.** -/
theorem WellFormed.eliminate {s : Store} (hs : s.WellFormed) {erased : Name → Bool}
    {id : NodeId} {f : Formula} (hf : s.Denotes id f)
    (hsize : (s.eliminate erased id).2.size ≤ UInt32.size) :
    Yields (s.eliminate erased id) (f.eliminate erased) := by
  have hlt := hf.lt
  exact (follows erased f (2 * s.size + 1) s id hs hf (by omega) (.inl hsize)).1

/-- **The store after an elimination** is the store with the stages of the
tree in it. -/
theorem WellFormed.eliminate_snd {s : Store} (hs : s.WellFormed) {erased : Name → Bool}
    {id : NodeId} {f : Formula} (hf : s.Denotes id f)
    (hroom : (s.eliminate erased id).2.size ≤ UInt32.size
      ∨ (s.addAll (f.stages erased)).size ≤ UInt32.size) :
    (s.eliminate erased id).2 = s.addAll (f.stages erased) := by
  have hlt := hf.lt
  exact (follows erased f (2 * s.size + 1) s id hs hf (by omega) hroom).2

/-- **An elimination that finds its stages leaves the store as it is**, and
answers with an id of the eliminated tree. -/
theorem WellFormed.eliminate_of_stores {s : Store} (hs : s.WellFormed) {erased : Name → Bool}
    {id : NodeId} {f : Formula} (hf : s.Denotes id f) (hstored : s.Stores (f.stages erased)) :
    ∃ id', s.eliminate erased id = (.ok id', s) ∧ s.Denotes id' (f.eliminate erased) := by
  have hsame : s.addAll (f.stages erased) = s := hs.addAll_of_stores hstored
  have hsnd : (s.eliminate erased id).2 = s := by
    rw [hs.eliminate_snd hf (.inr (hsame.symm ▸ hs.size_le)), hsame]
  obtain ⟨id', hok, -, hden⟩ := hs.eliminate hf (hsnd.symm ▸ hs.size_le)
  rw [hsnd] at hden
  exact ⟨id', Prod.ext hok hsnd, hden⟩

/-- **What elimination in the store means.**  The answer holds under a
valuation exactly when the condition without its negation signs holds after
the erased variables are unset.  Where there was no negation sign and no
erased variable is set, elimination changes nothing. -/
theorem eval_formula_eliminate {s : Store} (hs : s.WellFormed) (types : TypeTable)
    {id : NodeId} (hid : id.toNat < s.size)
    (hsize : (s.eliminate types.erases id).2.size < UInt32.size - 1) :
    ∃ f id' g, s.formula id = .ok f
      ∧ (s.eliminate types.erases id).1 = .ok id'
      ∧ (s.eliminate types.erases id).2.formula id' = .ok g
      ∧ (∀ v v' : Name → Bool, (∀ n, types.Erases n → v' n = false) →
          (∀ n, ¬ types.Erases n → v' n = v n) → g.eval v = f.positive.eval v')
      ∧ (f.NegationFree → ∀ v : Name → Bool, (∀ n, types.Erases n → v n = false) →
          g.eval v = f.eval v) := by
  obtain ⟨f, hf⟩ := hs.exists_denotes hid
  have hsize' : (s.eliminate types.erases id).2.size ≤ UInt32.size := by omega
  obtain ⟨id', hok, hwf, hden⟩ := hs.eliminate hf hsize'
  refine ⟨f, id', f.eliminate types.erases, hs.formula_eq hf, hok, hwf.formula_eq hden, ?_, ?_⟩
  · intro v v' herased hkept
    exact f.eval_eliminate_erases types herased hkept
  · intro hfree v herased
    rw [f.eval_eliminate_erases types herased (fun _ _ => rfl),
        Formula.positive_of_negationFree hfree]

/-- Elimination of a disjunction with a negation and an erased variable. -/
theorem eval_formula_eliminate_disj :
    ∃ f id' g, (empty.read "!A || X_MODULE" 1).2.formula 4 = .ok f
      ∧ ((empty.read "!A || X_MODULE" 1).2.eliminate
          (TypeTable.empty.declare "X" "bool").erases 4).1 = .ok id'
      ∧ ((empty.read "!A || X_MODULE" 1).2.eliminate
          (TypeTable.empty.declare "X" "bool").erases 4).2.formula id' = .ok g
      ∧ g.eval (fun _ => true) = f.positive.eval
          (fun n => !(TypeTable.empty.declare "X" "bool").erases n) := by
  have hs : (empty.read "!A || X_MODULE" 1).2.WellFormed :=
    wellFormed_empty.read "!A || X_MODULE" 1 (by decide +kernel)
  have hid : (4 : NodeId).toNat < (empty.read "!A || X_MODULE" 1).2.size := by decide +kernel
  obtain ⟨f, id', g, hf, hid', hg, heval, -⟩ :=
    eval_formula_eliminate hs (TypeTable.empty.declare "X" "bool") hid (by decide +kernel)
  refine ⟨f, id', g, hf, hid', hg, heval _ _ ?_ ?_⟩
  · intro n herased
    rw [(TypeTable.erases_eq_true_iff _ n).2 herased]
    rfl
  · intro n hkept
    rw [(TypeTable.erases_eq_false_iff _ n).2 hkept]
    rfl

end Store

end PresenceTable
