/-
  PresenceTable.Proofs.Store.Denotation
  ─────────────────────────────────────
  **IDS AND THE TREES THEY STAND FOR.**

  `s.Denotes id f` says that following the operands of `id` down to the
  leaves gives the tree `f`.  It is a statement about nodes alone and needs
  no bound on the way down, unlike `formula`, which computes the tree.

  Main results:
    * `Denotes.of_grows` — an id keeps its tree while the store grows;
    * `Denotes.id_unique` — a tree has one id only;
    * `Denotes.id_eq_iff` — comparing ids compares trees;
    * `WellFormed.exists_denotes` — every id has a tree;
    * `WellFormed.formula_eq` — the computed tree is that tree;
    * `Consistent.denotes_add` — storing a tree gives an id of it;
    * `Consistent.add_of_denotes` — a tree that has an id is stored already.
-/
import PresenceTable.Proofs.Store.Invariant

namespace PresenceTable

namespace Store

/-! ## §1. Trees. -/

/-- The tree that an id stands for. -/
def Denotes (s : Store) : NodeId → Formula → Prop
  | id, .bot => s.node? id = some .bot
  | id, .var n => s.node? id = some (.var n)
  | id, .neg f => ∃ operand, s.node? id = some (.neg operand) ∧ s.Denotes operand f
  | id, .conj f g =>
      ∃ left right, s.node? id = some (.conj left right)
        ∧ s.Denotes left f ∧ s.Denotes right g
  | id, .disj f g =>
      ∃ left right, s.node? id = some (.disj left right)
        ∧ s.Denotes left f ∧ s.Denotes right g

/-- The node is the top of the tree, and its operands stand for the trees
below. -/
inductive TopOf (s : Store) : Node → Formula → Prop where
  | bot : TopOf s .bot .bot
  | var (n : Name) : TopOf s (.var n) (.var n)
  | neg {operand : NodeId} {f : Formula} :
      s.Denotes operand f → TopOf s (.neg operand) (.neg f)
  | conj {left right : NodeId} {f g : Formula} :
      s.Denotes left f → s.Denotes right g → TopOf s (.conj left right) (.conj f g)
  | disj {left right : NodeId} {f g : Formula} :
      s.Denotes left f → s.Denotes right g → TopOf s (.disj left right) (.disj f g)

theorem denotes_iff {s : Store} {id : NodeId} {f : Formula} :
    s.Denotes id f ↔ ∃ n, s.node? id = some n ∧ s.TopOf n f := by
  constructor
  · intro h
    cases f with
    | bot => exact ⟨_, h, .bot⟩
    | var n => exact ⟨_, h, .var n⟩
    | neg f =>
        obtain ⟨_, hn, hf⟩ := h
        exact ⟨_, hn, .neg hf⟩
    | conj f g =>
        obtain ⟨_, _, hn, hf, hg⟩ := h
        exact ⟨_, hn, .conj hf hg⟩
    | disj f g =>
        obtain ⟨_, _, hn, hf, hg⟩ := h
        exact ⟨_, hn, .disj hf hg⟩
  · intro h
    obtain ⟨n, hn, htop⟩ := h
    cases htop with
    | bot => exact hn
    | var n => exact hn
    | neg hf => exact ⟨_, hn, hf⟩
    | conj hf hg => exact ⟨_, _, hn, hf, hg⟩
    | disj hf hg => exact ⟨_, _, hn, hf, hg⟩

theorem Denotes.lt {s : Store} {id : NodeId} {f : Formula} (h : s.Denotes id f) :
    id.toNat < s.size := by
  obtain ⟨_, hn, _⟩ := denotes_iff.1 h
  exact node?_eq_some_lt hn

/-- The operands of the top stand for trees. -/
theorem TopOf.exists_denotes {s : Store} {n : Node} {f : Formula} (h : s.TopOf n f) :
    ∀ child ∈ n.children, ∃ g, s.Denotes child g := by
  intro child hchild
  cases h with
  | bot | var => cases hchild
  | neg hf =>
      rw [List.mem_singleton.1 hchild]
      exact ⟨_, hf⟩
  | conj hf hg | disj hf hg =>
      rcases List.mem_pair.1 hchild with rfl | rfl
      · exact ⟨_, hf⟩
      · exact ⟨_, hg⟩

theorem TopOf.children_lt {s : Store} {n : Node} {f : Formula} (h : s.TopOf n f) :
    ∀ child ∈ n.children, child.toNat < s.size := by
  intro child hchild
  obtain ⟨g, hg⟩ := h.exists_denotes child hchild
  exact hg.lt

/-- A tree is a matter of the nodes and their ids alone. -/
theorem Denotes.of_nodes {s t : Store}
    (h : ∀ (id : NodeId) (n : Node), s.node? id = some n → t.node? id = some n) {f : Formula} :
    ∀ {id : NodeId}, s.Denotes id f → t.Denotes id f := by
  induction f with
  | bot => intro id hf; exact h id _ hf
  | var n => intro id hf; exact h id _ hf
  | neg f ih =>
      intro id h'
      obtain ⟨operand, hn, hf⟩ := h'
      exact ⟨operand, h id _ hn, ih hf⟩
  | conj f g ihf ihg | disj f g ihf ihg =>
      intro id h'
      obtain ⟨left, right, hn, hf, hg⟩ := h'
      exact ⟨left, right, h id _ hn, ihf hf, ihg hg⟩

/-- **An id keeps its tree.** -/
theorem Denotes.of_grows {s t : Store} (h : Grows s t) {f : Formula} {id : NodeId}
    (hf : s.Denotes id f) : t.Denotes id f :=
  hf.of_nodes fun _ _ => h.node?

theorem TopOf.of_grows {s t : Store} (h : Grows s t) {n : Node} {f : Formula}
    (htop : s.TopOf n f) : t.TopOf n f := by
  cases htop with
  | bot => exact .bot
  | var n => exact .var n
  | neg hf => exact .neg (hf.of_grows h)
  | conj hf hg => exact .conj (hf.of_grows h) (hg.of_grows h)
  | disj hf hg => exact .disj (hf.of_grows h) (hg.of_grows h)

/-- An id stands for one tree only. -/
theorem Denotes.unique {s : Store} {f : Formula} :
    ∀ {id : NodeId} {g : Formula}, s.Denotes id f → s.Denotes id g → f = g := by
  -- the node of the id is the top of both trees, and leaves one case of `TopOf`
  induction f with
  | bot | var =>
      intro id g hf hg
      obtain ⟨n, hn, htop⟩ := denotes_iff.1 hg
      rw [Option.some.inj (hn.symm.trans hf)] at htop
      cases htop
      rfl
  | neg f ih =>
      intro id g hf hg
      obtain ⟨operand, hnode, hf⟩ := hf
      obtain ⟨n, hn, htop⟩ := denotes_iff.1 hg
      rw [Option.some.inj (hn.symm.trans hnode)] at htop
      cases htop with
      | neg hoperand => rw [ih hf hoperand]
  | conj f₁ f₂ ih₁ ih₂ =>
      intro id g hf hg
      obtain ⟨left, right, hnode, h₁, h₂⟩ := hf
      obtain ⟨n, hn, htop⟩ := denotes_iff.1 hg
      rw [Option.some.inj (hn.symm.trans hnode)] at htop
      cases htop with
      | conj hg₁ hg₂ => rw [ih₁ h₁ hg₁, ih₂ h₂ hg₂]
  | disj f₁ f₂ ih₁ ih₂ =>
      intro id g hf hg
      obtain ⟨left, right, hnode, h₁, h₂⟩ := hf
      obtain ⟨n, hn, htop⟩ := denotes_iff.1 hg
      rw [Option.some.inj (hn.symm.trans hnode)] at htop
      cases htop with
      | disj hg₁ hg₂ => rw [ih₁ h₁ hg₁, ih₂ h₂ hg₂]

/-- **A tree has one id only.** -/
theorem Denotes.id_unique {s : Store} (hs : s.Consistent) {f : Formula} :
    ∀ {i j : NodeId}, s.Denotes i f → s.Denotes j f → i = j := by
  -- equal operands make equal nodes, and a node has one id
  induction f with
  | bot => intro i j hi hj; exact hs.id_unique hi hj
  | var n => intro i j hi hj; exact hs.id_unique hi hj
  | neg f ih =>
      intro i j hi hj
      obtain ⟨_, hni, hfi⟩ := hi
      obtain ⟨_, hnj, hfj⟩ := hj
      rw [ih hfi hfj] at hni
      exact hs.id_unique hni hnj
  | conj f g ihf ihg | disj f g ihf ihg =>
      intro i j hi hj
      obtain ⟨_, _, hni, hfi, hgi⟩ := hi
      obtain ⟨_, _, hnj, hfj, hgj⟩ := hj
      rw [ihf hfi hfj, ihg hgi hgj] at hni
      exact hs.id_unique hni hnj

/-- **Comparing ids compares trees.** -/
theorem Denotes.id_eq_iff {s : Store} (hs : s.Consistent) {i j : NodeId} {f g : Formula}
    (hf : s.Denotes i f) (hg : s.Denotes j g) : i = j ↔ f = g := by
  constructor
  · rintro rfl
    exact hf.unique hg
  · rintro rfl
    exact hf.id_unique hs hg

theorem Consistent.denotes_botId {s : Store} (hs : s.Consistent) : s.Denotes botId .bot :=
  hs.node?_botId

/-- The constant `bot` is recognised by its id. -/
theorem Denotes.eq_botId_iff {s : Store} (hs : s.Consistent) {id : NodeId} {f : Formula}
    (h : s.Denotes id f) : id = botId ↔ f = .bot :=
  h.id_eq_iff hs hs.denotes_botId

/-! ## §2. Every id of a well-formed store has a tree. -/

theorem WellFormed.exists_denotes {s : Store} (hs : s.WellFormed) {id : NodeId}
    (hid : id.toNat < s.size) : ∃ f, s.Denotes id f := by
  -- the ids of operands are smaller, so the induction is on the id
  induction hk : id.toNat using Nat.strongRecOn generalizing id with
  | ind k ih =>
      subst hk
      obtain ⟨n, hn⟩ := exists_node? hid
      have hdown : ∀ child ∈ n.children, ∃ f, s.Denotes child f := by
        intro child hchild
        have hlt := hs.descends id n hn child hchild
        exact ih child.toNat hlt (Nat.lt_trans hlt hid) rfl
      cases n with
      | bot => exact ⟨.bot, hn⟩
      | var n => exact ⟨.var n, hn⟩
      | neg operand =>
          obtain ⟨f, hf⟩ := hdown operand (by simp [Node.children])
          exact ⟨.neg f, operand, hn, hf⟩
      | conj left right =>
          obtain ⟨f, hf⟩ := hdown left (by simp [Node.children])
          obtain ⟨g, hg⟩ := hdown right (by simp [Node.children])
          exact ⟨.conj f g, left, right, hn, hf, hg⟩
      | disj left right =>
          obtain ⟨f, hf⟩ := hdown left (by simp [Node.children])
          obtain ⟨g, hg⟩ := hdown right (by simp [Node.children])
          exact ⟨.disj f g, left, right, hn, hf, hg⟩

/-- The tree is found by a way down that is no longer than the id. -/
theorem WellFormed.formulaWithin_eq {s : Store} (hs : s.WellFormed) {f : Formula} :
    ∀ {id : NodeId} {bound : Nat}, s.Denotes id f → id.toNat < bound →
      s.formulaWithin bound id = .ok f := by
  -- with each operand the bound falls by one and the id by at least one
  induction f with
  | bot | var =>
      intro id bound hf hbound
      obtain ⟨bound, rfl⟩ := Nat.exists_eq_add_one_of_ne_zero (Nat.ne_zero_of_lt hbound)
      rw [formulaWithin, show s.node? id = _ from hf]
  | neg f ih =>
      intro id bound hf hbound
      obtain ⟨bound, rfl⟩ := Nat.exists_eq_add_one_of_ne_zero (Nat.ne_zero_of_lt hbound)
      obtain ⟨operand, hn, hf⟩ := hf
      have hlt := hs.descends id _ hn operand (by simp [Node.children])
      have hoperand : s.formulaWithin bound operand = .ok f := ih hf (by omega)
      rw [formulaWithin, hn]
      simp only [hoperand]
      rfl
  | conj f g ihf ihg | disj f g ihf ihg =>
      intro id bound hf hbound
      obtain ⟨bound, rfl⟩ := Nat.exists_eq_add_one_of_ne_zero (Nat.ne_zero_of_lt hbound)
      obtain ⟨left, right, hn, hf, hg⟩ := hf
      have hleft := hs.descends id _ hn left (by simp [Node.children])
      have hright := hs.descends id _ hn right (by simp [Node.children])
      have hleft' : s.formulaWithin bound left = .ok f := ihf hf (by omega)
      have hright' : s.formulaWithin bound right = .ok g := ihg hg (by omega)
      rw [formulaWithin, hn]
      simp only [hleft', hright']
      rfl

theorem WellFormed.formula_eq {s : Store} (hs : s.WellFormed) {id : NodeId} {f : Formula}
    (h : s.Denotes id f) : s.formula id = .ok f :=
  hs.formulaWithin_eq h (Nat.lt_succ_of_lt h.lt)

theorem print_of_formula {s : Store} {id : NodeId} {f : Formula} (h : s.formula id = .ok f) :
    s.print id = .ok f.print := by
  unfold print
  rw [h]
  rfl

theorem WellFormed.print_eq {s : Store} (hs : s.WellFormed) {id : NodeId} {f : Formula}
    (h : s.Denotes id f) : s.print id = .ok f.print :=
  print_of_formula (hs.formula_eq h)

/-! ## §3. Storing a tree. -/

/-- The id of a new node stands for the tree that the node is the top of. -/
theorem Consistent.denotes_intern {s : Store} (hs : s.Consistent) {n : Node} {f : Formula}
    (htop : s.TopOf n f) (hsize : (s.intern n).2.size ≤ UInt32.size) :
    (s.intern n).2.Denotes (s.intern n).1 f :=
  denotes_iff.2 ⟨n, hs.node?_intern n hsize, htop.of_grows (grows_intern s n)⟩

theorem WellFormed.intern_top {s : Store} (hs : s.WellFormed) {n : Node} {f : Formula}
    (htop : s.TopOf n f) (hsize : (s.intern n).2.size ≤ UInt32.size) :
    (s.intern n).2.WellFormed ∧ (s.intern n).2.Denotes (s.intern n).1 f :=
  ⟨hs.intern n hsize htop.children_lt, hs.denotes_intern htop hsize⟩

/-- **Storing a tree gives an id of it**, whatever else the store holds. -/
theorem Consistent.denotes_add {f : Formula} :
    ∀ {s : Store}, s.Consistent → (s.add f).2.size ≤ UInt32.size →
      (s.add f).2.Denotes (s.add f).1 f := by
  induction f with
  | bot => intro s hs hsize; exact hs.denotes_intern .bot hsize
  | var n => intro s hs hsize; exact hs.denotes_intern (.var n) hsize
  | neg f ih =>
      intro s hs hsize
      have hsizef := Nat.le_trans (grows_intern (s.add f).2 _).size_le hsize
      have hs' := (grows_add f s).consistent hs hsizef
      exact hs'.denotes_intern (.neg (ih hs hsizef)) hsize
  | conj f g ihf ihg | disj f g ihf ihg =>
      intro s hs hsize
      have hsizeg : ((s.add f).2.add g).2.size ≤ UInt32.size :=
        Nat.le_trans (grows_intern _ _).size_le hsize
      -- the second tree is stored after the first one, which keeps its id
      have hgrows := grows_add g (s.add f).2
      have hsizef := Nat.le_trans hgrows.size_le hsizeg
      have hs' := (grows_add f s).consistent hs hsizef
      have hs'' := hgrows.consistent hs' hsizeg
      have hf := (ihf hs hsizef).of_grows hgrows
      have hg := ihg hs' hsizeg
      exact hs''.denotes_intern (by constructor; exacts [hf, hg]) hsize

/-- A stored node is interned under its id, and nothing changes. -/
theorem Consistent.intern_of_node? {s : Store} (hs : s.Consistent) {id : NodeId} {n : Node}
    (h : s.node? id = some n) : s.intern n = (id, s) :=
  intern_of_stored ((hs.index_iff n id).2 h)

/-- **A tree that has an id is stored already.** -/
theorem Consistent.add_of_denotes {s : Store} (hs : s.Consistent) {f : Formula} :
    ∀ {id : NodeId}, s.Denotes id f → s.add f = (id, s) := by
  induction f with
  | bot => intro id hf; exact hs.intern_of_node? hf
  | var n => intro id hf; exact hs.intern_of_node? hf
  | neg f ih =>
      intro id hneg
      obtain ⟨operand, hn, hf⟩ := hneg
      rw [add, ih hf]
      exact hs.intern_of_node? hn
  | conj f g ihf ihg | disj f g ihf ihg =>
      intro id hboth
      obtain ⟨left, right, hn, hf, hg⟩ := hboth
      rw [add, ihf hf]
      dsimp only
      rw [ihg hg]
      exact hs.intern_of_node? hn

/-- Storing a tree keeps a store well-formed: the nodes of the tree are
interned after their operands. -/
theorem WellFormed.wellFormed_add {f : Formula} :
    ∀ {s : Store}, s.WellFormed → (s.add f).2.size ≤ UInt32.size → (s.add f).2.WellFormed := by
  induction f with
  | bot => intro s hs hsize; exact (hs.intern_top .bot hsize).1
  | var n => intro s hs hsize; exact (hs.intern_top (.var n) hsize).1
  | neg f ih =>
      intro s hs hsize
      have hsizef := Nat.le_trans (grows_intern (s.add f).2 _).size_le hsize
      have hf := hs.denotes_add hsizef
      exact ((ih hs hsizef).intern_top (.neg hf) hsize).1
  | conj f g ihf ihg | disj f g ihf ihg =>
      intro s hs hsize
      have hsizeg : ((s.add f).2.add g).2.size ≤ UInt32.size :=
        Nat.le_trans (grows_intern _ _).size_le hsize
      have hgrows := grows_add g (s.add f).2
      have hsizef := Nat.le_trans hgrows.size_le hsizeg
      have hs' := ihf hs hsizef
      have hf := (hs.denotes_add hsizef).of_grows hgrows
      have hg := hs'.denotes_add hsizeg
      exact ((ihg hs' hsizeg).intern_top (by constructor; exacts [hf, hg]) hsize).1

/-- **Storing a tree in a well-formed store.** -/
theorem WellFormed.add {f : Formula} {s : Store} (hs : s.WellFormed)
    (hsize : (s.add f).2.size ≤ UInt32.size) :
    (s.add f).2.WellFormed ∧ (s.add f).2.Denotes (s.add f).1 f :=
  ⟨hs.wellFormed_add hsize, hs.denotes_add hsize⟩

theorem WellFormed.addAll {fs : List Formula} :
    ∀ {s : Store}, s.WellFormed → (s.addAll fs).size ≤ UInt32.size →
      (s.addAll fs).WellFormed := by
  induction fs with
  | nil => intro s hs _; exact hs
  | cons f fs ih =>
      intro s hs hsize
      have hgrows := grows_addAll fs (s.add f).2
      have hadd := hs.add (Nat.le_trans hgrows.size_le hsize)
      exact ih hadd.1 hsize

/-- A refused text leaves parts of a condition behind, which are trees as well. -/
theorem WellFormed.read {s : Store} (hs : s.WellFormed) (text : Bytes) (line : UInt32)
    (hsize : (s.read text line).2.size ≤ UInt32.size) : (s.read text line).2.WellFormed := by
  obtain ⟨fs, hfs⟩ := s.exists_read_snd_eq text line
  rw [hfs] at hsize ⊢
  exact hs.addAll hsize

end Store

end PresenceTable
