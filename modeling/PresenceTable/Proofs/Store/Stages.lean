/-
  PresenceTable.Proofs.Store.Stages
  ─────────────────────────────────
  **TREES ON THE WAY OF AN ELIMINATION.**

  Elimination in the store follows ids, and the ids that it meets and makes
  depend on all that was stored before.  Which trees it stores does not:
  these are the conjunctions and disjunctions that elimination of the tree
  puts together, also those from which a constant is left out later.

  A tree that is stored already is not stored again, so an elimination that
  finds all its stages in the store leaves it as it is.  This is the case
  when the same elimination went before, and when there is nothing to
  remove.

  Main results:
    * `Consistent.stores_addAll` — what has been stored is stored;
    * `Consistent.addAll_of_stores` — and it is not stored again;
    * `mem_parts_of_mem_stages` — where there is nothing to remove.
-/
import PresenceTable.Proofs.Formula.NormalForm
import PresenceTable.Proofs.Store.Denotation

namespace PresenceTable

/-! ## §1. Stored trees. -/

namespace Store

/-- All of these trees have an id. -/
def Stores (s : Store) (fs : List Formula) : Prop := ∀ f ∈ fs, ∃ id, s.Denotes id f

variable {s t : Store} {fs gs : List Formula}

theorem Stores.of_grows (h : Grows s t) (hs : s.Stores fs) : t.Stores fs := by
  intro f hf
  obtain ⟨id, hid⟩ := hs f hf
  exact ⟨id, hid.of_grows h⟩

/-- A stored tree is stored with all its parts. -/
theorem Denotes.stores_parts {f : Formula} :
    ∀ {id : NodeId}, s.Denotes id f → s.Stores f.parts := by
  induction f with
  | bot | var n =>
      intro id hid g hg
      rw [List.mem_singleton.1 hg]
      exact ⟨id, hid⟩
  | neg f ih =>
      intro id hid g hg
      have ⟨operand, _, hf⟩ := hid
      rcases List.mem_append.1 hg with hpart | hself
      · exact ih hf g hpart
      · rw [List.mem_singleton.1 hself]
        exact ⟨id, hid⟩
  | conj f g ihf ihg | disj f g ihf ihg =>
      intro id hid h hh
      have ⟨left, right, _, hf, hg⟩ := hid
      rcases List.mem_append.1 hh with hpart | hself
      · rcases List.mem_append.1 hpart with hl | hr
        · exact ihf hf h hl
        · exact ihg hg h hr
      · rw [List.mem_singleton.1 hself]
        exact ⟨id, hid⟩

/-- What has been stored is stored. -/
theorem Consistent.stores_addAll :
    ∀ {s : Store}, s.Consistent → (s.addAll fs).size ≤ UInt32.size →
      (s.addAll fs).Stores fs := by
  induction fs with
  | nil => intro s _ _ f hf; cases hf
  | cons f fs ih =>
      intro s hs hsize
      have hgrows := grows_addAll fs (s.add f).2
      have hsizef := Nat.le_trans hgrows.size_le hsize
      have hs' := (grows_add f s).consistent hs hsizef
      intro g hg
      rcases List.mem_cons.1 hg with rfl | hlater
      · exact ⟨_, (hs.denotes_add hsizef).of_grows hgrows⟩
      · exact ih hs' hsize g hlater

/-- **What is stored is not stored again.** -/
theorem Consistent.addAll_of_stores (hs : s.Consistent) (h : s.Stores fs) :
    s.addAll fs = s := by
  induction fs with
  | nil => rfl
  | cons f fs ih =>
      obtain ⟨id, hid⟩ := h f List.mem_cons_self
      show (s.add f).2.addAll fs = s
      rw [hs.add_of_denotes hid]
      exact ih fun g hg => h g (List.mem_cons_of_mem f hg)

end Store

/-! ## §2. The stages of an elimination. -/

namespace Formula

/-- The conjunctions and disjunctions that elimination puts together, in
their order, and as they are before a constant is left out of them. -/
def stages (erased : Name → Bool) : Formula → List Formula
  | .bot | .var _ => []
  | .neg f => f.stages erased
  | .conj f g =>
      f.stages erased ++ g.stages erased ++ [.conj (f.eliminate erased) (g.eliminate erased)]
  | .disj f g =>
      f.stages erased ++ g.stages erased ++ [.disj (f.eliminate erased) (g.eliminate erased)]

/-- Where there is nothing to remove, only parts of the tree are put
together. -/
theorem mem_parts_of_mem_stages {erased : Name → Bool} {f : Formula}
    (h : f.Normal (erased · = true)) : ∀ g ∈ f.stages erased, g ∈ f.parts := by
  induction f with
  | bot | var n => intro g hg; cases hg
  | neg f ih => exact absurd h not_normal_neg
  | conj f g ihf ihg =>
      obtain ⟨hf, hg⟩ := normal_conj.1 h
      intro k hk
      rw [stages, eliminate_of_normal erased hf, eliminate_of_normal erased hg] at hk
      simp only [parts, List.mem_append] at hk ⊢
      exact hk.imp_left (Or.imp (ihf hf k) (ihg hg k))
  | disj f g ihf ihg =>
      obtain ⟨-, hf, hg⟩ := normal_disj.1 h
      intro k hk
      rw [stages, eliminate_of_normal erased hf, eliminate_of_normal erased hg] at hk
      simp only [parts, List.mem_append] at hk ⊢
      exact hk.imp_left (Or.imp (ihf hf k) (ihg hg k))

end Formula

end PresenceTable
