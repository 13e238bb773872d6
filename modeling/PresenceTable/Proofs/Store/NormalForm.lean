/-
  PresenceTable.Proofs.Store.NormalForm
  ─────────────────────────────────────
  **WHAT ELIMINATION LEAVES IN THE STORE.**

  The condition that elimination answers with is normal at every depth.  So
  an id is its own answer exactly when its condition is normal, and then the
  stages of the elimination are parts of what is stored, and nothing is
  added.  Otherwise conjunctions and disjunctions may be added, and nothing
  else ever is: the variables are those that were there.

  Main results:
    * `normal_formula_eliminate` — the condition that is answered;
    * `forkClosed_addsForks` — the nodes that are added;
    * `eliminate_eq_self_iff` — when an id is its own answer.
-/
import PresenceTable.Proofs.Store.Elimination

namespace PresenceTable

namespace Store

/-! ## §1. The condition that is answered. -/

/-- **Elimination answers with a normal condition.**  At no depth does it
contain a negation, a disjunction with the constant `bot` as an operand, or
an erased variable; its variables are among those of the condition that was
eliminated, and it has no more parts. -/
theorem normal_formula_eliminate {s : Store} (hs : s.WellFormed) (types : TypeTable)
    {id : NodeId} (hid : id.toNat < s.size)
    (hsize : (s.eliminate types.erases id).2.size < UInt32.size - 1) :
    ∃ f id' g, s.formula id = .ok f
      ∧ (s.eliminate types.erases id).1 = .ok id'
      ∧ (s.eliminate types.erases id).2.formula id' = .ok g
      ∧ g.Normal types.Erases
      ∧ (∀ n ∈ g.names, n ∈ f.names)
      ∧ g.parts.length ≤ f.parts.length := by
  obtain ⟨f, hf⟩ := hs.exists_denotes hid
  have hsize' : (s.eliminate types.erases id).2.size ≤ UInt32.size := by omega
  obtain ⟨id', hok, hwf, hden⟩ := hs.eliminate hf hsize'
  refine ⟨f, id', f.eliminate types.erases, hs.formula_eq hf, hok, hwf.formula_eq hden, ?_, ?_, ?_⟩
  · rw [← types.erases_eq]
    exact f.normal_eliminate types.erases
  · exact Formula.names_eliminate
  · exact f.length_parts_eliminate_le types.erases

/-- A disjunct that becomes `bot` under a negation, inside a disjunction that
loses its other disjunct later. -/
theorem normal_formula_eliminate_nested :
    ∃ f id' g, (empty.read "(A || !(X_MODULE || X_MODULE)) && !B" 1).2.formula 7 = .ok f
      ∧ ((empty.read "(A || !(X_MODULE || X_MODULE)) && !B" 1).2.eliminate
          (TypeTable.empty.declare "X" "bool").erases 7).1 = .ok id'
      ∧ ((empty.read "(A || !(X_MODULE || X_MODULE)) && !B" 1).2.eliminate
          (TypeTable.empty.declare "X" "bool").erases 7).2.formula id' = .ok g
      ∧ g.Normal (TypeTable.empty.declare "X" "bool").Erases
      ∧ (∀ n ∈ g.names, n ∈ f.names)
      ∧ g.parts.length ≤ f.parts.length := by
  have hs : (empty.read "(A || !(X_MODULE || X_MODULE)) && !B" 1).2.WellFormed :=
    wellFormed_empty.read "(A || !(X_MODULE || X_MODULE)) && !B" 1 (by decide +kernel)
  exact normal_formula_eliminate hs (TypeTable.empty.declare "X" "bool") (by decide +kernel)
    (by decide +kernel)

/-! ## §2. The nodes that are added. -/

/-- The second store has the nodes of the first, and behind them nothing but
conjunctions and disjunctions. -/
def AddsForks (s t : Store) : Prop :=
  t.variableCount = s.variableCount
    ∧ ∃ added, t.nodes.toList = s.nodes.toList ++ added ∧ ∀ n ∈ added, n.IsFork

theorem addsForks_intern (s : Store) {n : Node} (hn : n.IsFork) :
    AddsForks s (s.intern n).2 := by
  cases hnew : s.index[n]? with
  | some id =>
      rw [intern_of_stored hnew]
      exact ⟨rfl, [], (List.append_nil _).symm, fun _ h => by cases h⟩
  | none =>
      have hvar : n.isVar = false := by cases n <;> first | rfl | exact hn.elim
      refine ⟨?_, [n], ?_, fun m hm => ?_⟩
      · simp [intern, hnew, hvar]
      · simp [intern, hnew]
      · rw [List.mem_singleton.1 hm]
        exact hn

/-- **Elimination adds conjunctions and disjunctions only.** -/
theorem forkClosed_addsForks : ForkClosed AddsForks where
  refl s := ⟨rfl, [], (List.append_nil _).symm, fun _ h => by cases h⟩
  trans := by
    rintro s t u ⟨hcount, added, hnodes, hadded⟩ ⟨hcount', added', hnodes', hadded'⟩
    refine ⟨hcount'.trans hcount, added ++ added', ?_, ?_⟩
    · rw [hnodes', hnodes, List.append_assoc]
    · exact List.forall_mem_append.2 ⟨hadded, hadded'⟩
  intern s n hn := addsForks_intern s hn

/-! ## §3. Ids that are their own answers. -/

/-- Elimination of a normal condition answers with its id and leaves the
store as it is. -/
theorem WellFormed.eliminate_of_normal {s : Store} (hs : s.WellFormed) {erased : Name → Bool}
    {id : NodeId} {f : Formula} (hf : s.Denotes id f) (h : f.Normal (erased · = true)) :
    s.eliminate erased id = (.ok id, s) := by
  -- what is put together on the way are parts of the condition, which are stored
  have hstored : s.Stores (f.stages erased) := fun g hg =>
    hf.stores_parts g (Formula.mem_parts_of_mem_stages h g hg)
  obtain ⟨id', heq, hden⟩ := hs.eliminate_of_stores hf hstored
  rw [Formula.eliminate_of_normal erased h] at hden
  rw [heq, hden.id_unique hs.toConsistent hf]

/-- **An id is its own answer exactly when there is nothing to remove**, and
then nothing is added to the store.  In every case, also when an id is not
that of a node, nothing but conjunctions and disjunctions is added, and the
number of variables stays. -/
theorem eliminate_eq_self_iff {s : Store} (hs : s.WellFormed) (types : TypeTable) :
    (∀ id : NodeId, id.toNat < s.size → ∃ f, s.formula id = .ok f
      ∧ ((s.eliminate types.erases id).2.size < UInt32.size - 1 →
          ((s.eliminate types.erases id).1 = .ok id ↔ f.Normal types.Erases))
      ∧ (f.Normal types.Erases → s.eliminate types.erases id = (.ok id, s)))
    ∧ ∀ id : NodeId,
        (s.eliminate types.erases id).2.variableCount = s.variableCount
          ∧ ∃ added, (s.eliminate types.erases id).2.nodes.toList = s.nodes.toList ++ added
            ∧ ∀ n ∈ added, ∃ left right, n = .conj left right ∨ n = .disj left right := by
  constructor
  · intro id hid
    obtain ⟨f, hf⟩ := hs.exists_denotes hid
    refine ⟨f, hs.formula_eq hf, fun hsize => ?_, fun hnormal => ?_⟩
    · have hsize' : (s.eliminate types.erases id).2.size ≤ UInt32.size := by omega
      obtain ⟨id', hok, hwf, hden⟩ := hs.eliminate hf hsize'
      have hkept := hf.of_grows (grows_eliminate s types.erases id)
      -- the two ids are compared in the store afterwards, where both have trees
      rw [hok, Except.ok.injEq, hden.id_eq_iff hwf.toConsistent hkept,
        Formula.eliminate_eq_iff_normal, types.erases_eq]
    · rw [← types.erases_eq] at hnormal
      exact hs.eliminate_of_normal hf hnormal
  · intro id
    obtain ⟨hcount, added, hnodes, hadded⟩ :=
      forkClosed_addsForks.eliminateWithin types.erases (2 * s.size + 1) s id
    refine ⟨hcount, added, hnodes, fun n hn => ?_⟩
    cases n with
    | conj left right => exact ⟨left, right, .inl rfl⟩
    | disj left right => exact ⟨left, right, .inr rfl⟩
    | bot | var | neg => exact (hadded _ hn).elim

/-- A module variable is kept while its base may be a module, and the id of
the condition is its own answer; with another type for the base it is not. -/
theorem eliminate_eq_self_iff_retyped :
    (empty.read "A && (B_MODULE || C)" 1).2.eliminate
        (TypeTable.empty.declare "B" "tristate").erases 5
        = (.ok 5, (empty.read "A && (B_MODULE || C)" 1).2)
      ∧ (∃ f, (empty.read "A && (B_MODULE || C)" 1).2.formula 5 = .ok f
          ∧ ¬ f.Normal (TypeTable.empty.declare "B" "bool").Erases)
      ∧ ((empty.read "A && (B_MODULE || C)" 1).2.eliminate
          (TypeTable.empty.declare "B" "bool").erases 5).2.variableCount = 3 := by
  have hs : (empty.read "A && (B_MODULE || C)" 1).2.WellFormed :=
    wellFormed_empty.read "A && (B_MODULE || C)" 1 (by decide +kernel)
  have hid : (5 : NodeId).toNat < (empty.read "A && (B_MODULE || C)" 1).2.size := by
    decide +kernel
  obtain ⟨hkept, -⟩ := eliminate_eq_self_iff hs (TypeTable.empty.declare "B" "tristate")
  obtain ⟨hchanged, hcount⟩ := eliminate_eq_self_iff hs (TypeTable.empty.declare "B" "bool")
  obtain ⟨f, -, hiff, hsame⟩ := hkept 5 hid
  obtain ⟨g, hg, hiff', -⟩ := hchanged 5 hid
  refine ⟨hsame ((hiff (by decide +kernel)).1 (by decide +kernel)), ⟨g, hg, fun hnormal => ?_⟩, ?_⟩
  · have hother := (hiff' (by decide +kernel)).2 hnormal
    exact absurd hother (by decide +kernel)
  · rw [(hcount 5).1]
    decide +kernel

end Store

end PresenceTable
