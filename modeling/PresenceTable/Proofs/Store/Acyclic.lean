/-
  PresenceTable.Proofs.Store.Acyclic
  ──────────────────────────────────
  **STORES WITHOUT CYCLES.**

  A node may be made before its operands are, so ids need not lead down to
  smaller ids, and a node can even become a part of itself.  A store without
  cycles excludes the latter and nothing else: an operand may have a larger
  id than its node, or none at all.

  No id is met twice on a way down in such a store, so no way down is longer
  than the number of nodes.  That is all that `formula` needs to know, and it
  remains true while conditions are stored from the leaves up: whatever is
  below the operands of a new node was there before.

  Main results:
    * `WayDown.length_le` — a way down is no longer than the store;
    * `formula_eq_error` — a tree is missing only where an id is unknown;
    * `formula_of_grows` — a tree that was found is found ever after;
    * `Acyclic.intern` — which nodes may be stored;
    * `Acyclic.read` — reading makes no cycles.
-/
import Mathlib.Data.List.Perm.Subperm
import Mathlib.Data.List.Range
import PresenceTable.Proofs.Store.Denotation

namespace PresenceTable

namespace Store

/-! ## §1. Ways down. -/

/-- The second id is an operand of the node that the first one belongs to. -/
def Child (s : Store) (id child : NodeId) : Prop :=
  ∃ n, s.node? id = some n ∧ child ∈ n.children

/-- No way down leads back to where it began.  Operands need not exist. -/
def Acyclic (s : Store) : Prop := ∀ id, ¬ Relation.TransGen s.Child id id

/-- The id belongs to a node, and so do all ids below it. -/
def Complete (s : Store) (id : NodeId) : Prop :=
  ∀ below, Relation.ReflTransGen s.Child id below → below.toNat < s.size

theorem Child.of_grows {s t : Store} (h : Grows s t) {id child : NodeId}
    (hchild : s.Child id child) : t.Child id child := by
  obtain ⟨n, hn, hmem⟩ := hchild
  exact ⟨n, h.node? hn, hmem⟩

/-- A store in which every operand stands before its node, or is unknown, has
no cycles. -/
theorem acyclic_of_descends {s : Store}
    (h : ∀ (id : NodeId) (n : Node), s.node? id = some n →
      ∀ child ∈ n.children, child.toNat < id.toNat ∨ s.size ≤ child.toNat) : s.Acyclic := by
  -- from an id that is unknown no way goes on
  have hway : ∀ {i j : NodeId}, Relation.TransGen s.Child i j →
      j.toNat < i.toNat ∨ s.size ≤ j.toNat := by
    intro i j hij
    induction hij with
    | single hchild =>
        obtain ⟨n, hn, hmem⟩ := hchild
        exact h i n hn _ hmem
    | @tail b _ _ hchild ih =>
        obtain ⟨n, hn, hmem⟩ := hchild
        have hlt := node?_eq_some_lt hn
        have hstep := h b n hn _ hmem
        omega
  intro id hcycle
  obtain ⟨_, ⟨n, hn, -⟩, -⟩ := Relation.TransGen.head'_iff.1 hcycle
  have hlt := node?_eq_some_lt hn
  have hself := hway hcycle
  omega

/-- A way down to an id: the ids that were met before, each of them once. -/
structure WayDown (s : Store) (met : List NodeId) (id : NodeId) : Prop where
  nodup : met.Nodup
  above : ∀ i ∈ met, Relation.TransGen s.Child i id

/-- Different ids with different slots below a bound are no more than these. -/
theorem length_le_of_slots {ids : List NodeId} (hnodup : ids.Nodup) (slot : NodeId → Nat)
    {bound : Nat} (hinj : ∀ i ∈ ids, ∀ j ∈ ids, slot i = slot j → i = j)
    (hlt : ∀ i ∈ ids, slot i < bound) : ids.length ≤ bound := by
  have hslots : (ids.map slot).Nodup := hnodup.map_on hinj
  have hsub : ids.map slot ⊆ List.range bound := by
    intro k hk
    obtain ⟨i, hi, rfl⟩ := List.mem_map.1 hk
    exact List.mem_range.2 (hlt i hi)
  simpa using (hslots.subperm hsub).length_le

namespace WayDown

variable {s t : Store} {met : List NodeId} {id child : NodeId}

theorem nil (s : Store) (id : NodeId) : WayDown s [] id :=
  ⟨List.nodup_nil, fun _ hi => absurd hi List.not_mem_nil⟩

/-- One step further down, an id is met that was not met before. -/
theorem step (hs : s.Acyclic) (h : WayDown s met id) (hchild : s.Child id child) :
    WayDown s (id :: met) child where
  nodup := List.nodup_cons.2 ⟨fun hmem => hs id (h.above id hmem), h.nodup⟩
  above := by
    intro i hi
    rcases List.mem_cons.1 hi with rfl | hmem
    · exact .single hchild
    · exact (h.above i hmem).tail hchild

theorem of_grows (hgrows : Grows s t) (h : WayDown s met id) : WayDown t met id where
  nodup := h.nodup
  above i hi :=
    Relation.TransGen.mono (fun _ _ hchild => hchild.of_grows hgrows) _ _ (h.above i hi)

/-- Whatever has an id below it belongs to a node. -/
theorem exists_node (h : WayDown s met id) : ∀ i ∈ met, ∃ n, s.node? i = some n := by
  intro i hi
  obtain ⟨_, ⟨n, hn, -⟩, -⟩ := Relation.TransGen.head'_iff.1 (h.above i hi)
  exact ⟨n, hn⟩

/-- **A way down is no longer than the store.** -/
theorem length_le (h : WayDown s met id) : met.length ≤ s.size := by
  refine length_le_of_slots h.nodup UInt32.toNat (fun _ _ _ _ => UInt32.toNat_inj.1) fun i hi => ?_
  obtain ⟨n, hn⟩ := h.exists_node i hi
  exact node?_eq_some_lt hn

end WayDown

/-! ## §2. Trees. -/

theorem bind_eq_error_iff {ε α β : Type} {x : Except ε α} {k : α → Except ε β} {e : ε} :
    (x >>= k) = .error e ↔ x = .error e ∨ ∃ a, x = .ok a ∧ k a = .error e := by
  cases x with
  | error e' => simp [bind, Except.bind]
  | ok a => simp [bind, Except.bind]

theorem bind_eq_ok_iff {ε α β : Type} {x : Except ε α} {k : α → Except ε β} {b : β} :
    (x >>= k) = .ok b ↔ ∃ a, x = .ok a ∧ k a = .ok b := by
  cases x with
  | error e => simp [bind, Except.bind]
  | ok a => simp [bind, Except.bind]

/-- **A tree is missing only where an id is unknown**: no way down is longer
than the bound. -/
theorem Acyclic.formulaWithin_eq_error {s : Store} (hs : s.Acyclic) (bound : Nat) :
    ∀ {met : List NodeId} {id : NodeId} {fault : Fault}, WayDown s met id →
      s.size < bound + met.length → s.formulaWithin bound id = .error fault →
      fault = .unknownId ∧ ∃ below, Relation.ReflTransGen s.Child id below
        ∧ s.node? below = none := by
  induction bound with
  | zero =>
      intro met id fault hway hbound _
      have hle := hway.length_le
      omega
  | succ bound ih =>
      intro met id fault hway hbound h
      have hdown : ∀ child, s.Child id child → s.formulaWithin bound child = .error fault →
          fault = .unknownId ∧ ∃ below, Relation.ReflTransGen s.Child id below
            ∧ s.node? below = none := by
        intro child hchild herror
        obtain ⟨hfault, below, hbelow, hnone⟩ := ih (hway.step hs hchild)
          (by rw [List.length_cons]; omega) herror
        exact ⟨hfault, below, hbelow.head hchild, hnone⟩
      cases hn : s.node? id with
      | none =>
          rw [formulaWithin, hn] at h
          cases h
          exact ⟨rfl, id, .refl, hn⟩
      | some n =>
          rw [formulaWithin, hn] at h
          cases n with
          | bot | var => cases h
          | neg operand =>
              rcases bind_eq_error_iff.1 h with h | ⟨_, -, h⟩
              · exact hdown operand ⟨_, hn, by simp [Node.children]⟩ h
              · cases h
          | conj left right | disj left right =>
              rcases bind_eq_error_iff.1 h with h | ⟨_, -, h⟩
              · exact hdown left ⟨_, hn, by simp [Node.children]⟩ h
              · rcases bind_eq_error_iff.1 h with h | ⟨_, -, h⟩
                · exact hdown right ⟨_, hn, by simp [Node.children]⟩ h
                · cases h

theorem Acyclic.formula_eq_error {s : Store} (hs : s.Acyclic) {id : NodeId} {fault : Fault}
    (h : s.formula id = .error fault) :
    fault = .unknownId ∧ ∃ below, Relation.ReflTransGen s.Child id below
      ∧ s.node? below = none :=
  hs.formulaWithin_eq_error _ (.nil s id) (by simp) h

/-- **Where no id is missing there is a tree.** -/
theorem Acyclic.exists_formula {s : Store} (hs : s.Acyclic) {id : NodeId}
    (hid : s.Complete id) : ∃ f, s.formula id = .ok f := by
  cases h : s.formula id with
  | ok f => exact ⟨f, rfl⟩
  | error fault =>
      obtain ⟨-, below, hbelow, hnone⟩ := hs.formula_eq_error h
      obtain ⟨n, hn⟩ := exists_node? (hid below hbelow)
      rw [hnone] at hn
      cases hn

/-- A tree that is found within a bound is found within larger ones, and when
the store has grown. -/
theorem formulaWithin_of_grows {s t : Store} (hgrows : Grows s t) (bound : Nat) :
    ∀ {bound' : Nat} {id : NodeId} {f : Formula}, bound ≤ bound' →
      s.formulaWithin bound id = .ok f → t.formulaWithin bound' id = .ok f := by
  induction bound with
  | zero => intro bound' id f _ h; cases h
  | succ bound ih =>
      intro bound' id f hbound h
      obtain ⟨bound', rfl⟩ := Nat.exists_eq_add_one_of_ne_zero (Nat.ne_zero_of_lt hbound)
      have hbound' : bound ≤ bound' := Nat.le_of_succ_le_succ hbound
      cases hn : s.node? id with
      | none => rw [formulaWithin, hn] at h; cases h
      | some n =>
          rw [formulaWithin, hn] at h
          rw [formulaWithin, hgrows.node? hn]
          cases n with
          | bot | var => exact h
          | neg operand =>
              obtain ⟨f', hf, h⟩ := bind_eq_ok_iff.1 h
              exact bind_eq_ok_iff.2 ⟨f', ih hbound' hf, h⟩
          | conj left right | disj left right =>
              obtain ⟨f', hf, h⟩ := bind_eq_ok_iff.1 h
              obtain ⟨g', hg, h⟩ := bind_eq_ok_iff.1 h
              exact bind_eq_ok_iff.2 ⟨f', ih hbound' hf, bind_eq_ok_iff.2 ⟨g', ih hbound' hg, h⟩⟩

/-- **A tree that was found is found ever after.** -/
theorem formula_of_grows {s t : Store} (hgrows : Grows s t) {id : NodeId} {f : Formula}
    (h : s.formula id = .ok f) : t.formula id = .ok f :=
  formulaWithin_of_grows hgrows _ (Nat.succ_le_succ hgrows.size_le) h

/-! ## §3. What may be stored. -/

theorem Denotes.of_child {s : Store} {id child : NodeId} {f : Formula} (h : s.Denotes id f)
    (hchild : s.Child id child) : ∃ g, s.Denotes child g := by
  obtain ⟨n, hn, htop⟩ := denotes_iff.1 h
  obtain ⟨n', hn', hmem⟩ := hchild
  rw [hn] at hn'
  cases hn'
  exact htop.exists_denotes child hmem

/-- **What stands for a tree has nothing missing below it.** -/
theorem Denotes.complete {s : Store} {id : NodeId} {f : Formula} (h : s.Denotes id f) :
    s.Complete id := by
  intro below hbelow
  have hdenotes : ∃ g, s.Denotes below g := by
    induction hbelow with
    | refl => exact ⟨f, h⟩
    | tail _ hchild ih =>
        obtain ⟨g, hg⟩ := ih
        exact hg.of_child hchild
  obtain ⟨g, hg⟩ := hdenotes
  exact hg.lt

theorem TopOf.complete {s : Store} {n : Node} {f : Formula} (h : s.TopOf n f) :
    ∀ child ∈ n.children, s.Complete child := by
  intro child hchild
  obtain ⟨g, hg⟩ := h.exists_denotes child hchild
  exact hg.complete

/-- A new node changes no other node; without an id it changes nothing. -/
theorem child_intern_of_new {s : Store} {n : Node} (hnew : s.index[n]? = none)
    {id child : NodeId} :
    (s.intern n).2.Child id child ↔
      if id.toNat = s.size then child ∈ n.children else s.Child id child := by
  unfold Child
  rw [node?_intern_of_new hnew]
  split
  · simp
  · rfl

/-- Where nothing is missing, no way down comes to a new node. -/
theorem Complete.of_intern {s : Store} {n : Node} (hnew : s.index[n]? = none)
    {id below : NodeId} (h : s.Complete id)
    (hbelow : Relation.ReflTransGen (s.intern n).2.Child id below) :
    Relation.ReflTransGen s.Child id below := by
  induction hbelow with
  | refl => exact .refl
  | tail _ hchild ih =>
      rw [child_intern_of_new hnew, if_neg (Nat.ne_of_lt (h _ ih))] at hchild
      exact ih.tail hchild

/-- A way down through old nodes was there before, and any other one meets the
new node. -/
theorem way_intern_of_new {s : Store} {n : Node} (hnew : s.index[n]? = none) {i j : NodeId}
    (h : Relation.TransGen (s.intern n).2.Child i j) :
    Relation.TransGen s.Child i j ∨ ∃ k : NodeId, k.toNat = s.size
      ∧ Relation.ReflTransGen (s.intern n).2.Child i k
      ∧ Relation.TransGen (s.intern n).2.Child k j := by
  induction h with
  | @single j hchild =>
      by_cases hk : i.toNat = s.size
      · exact .inr ⟨i, hk, .refl, .single hchild⟩
      · rw [child_intern_of_new hnew, if_neg hk] at hchild
        exact .inl (.single hchild)
  | @tail b j hway hchild ih =>
      by_cases hk : b.toNat = s.size
      · exact .inr ⟨b, hk, hway.to_reflTransGen, .single hchild⟩
      · rcases ih with hold | ⟨k, hk', hto, hfrom⟩
        · rw [child_intern_of_new hnew, if_neg hk] at hchild
          exact .inl (hold.tail hchild)
        · exact .inr ⟨k, hk', hto, hfrom.tail hchild⟩

/-- **A node may be stored when nothing is missing below its operands**, or
when there is no id for it. -/
theorem Acyclic.intern {s : Store} (hs : s.Acyclic) (n : Node)
    (hchildren : s.size < UInt32.size → ∀ child ∈ n.children, s.Complete child) :
    (s.intern n).2.Acyclic := by
  cases hnew : s.index[n]? with
  | some id =>
      rw [intern_of_stored hnew]
      exact hs
  | none =>
      intro id hcycle
      rcases way_intern_of_new hnew hcycle with hold | ⟨k, hk, hto, hfrom⟩
      · exact hs id hold
      · -- the cycle leaves the new node through an operand, and comes back to it
        have hlt : s.size < UInt32.size := hk ▸ k.toNat_lt
        obtain ⟨child, hchild, hback⟩ := Relation.TransGen.head'_iff.1 (hfrom.trans_left hto)
        rw [child_intern_of_new hnew, if_pos hk] at hchild
        have hcomplete := hchildren hlt child hchild
        have hknown := hcomplete k (hcomplete.of_intern hnew hback)
        omega

/-! ### Storing and reading. -/

/-- **Storing a tree makes no cycles**, in a store that was made from an empty
one. -/
theorem Acyclic.add {f : Formula} :
    ∀ {s : Store}, Grows empty s → s.Acyclic → (s.add f).2.Acyclic := by
  induction f with
  | bot => intro s _ hs; exact hs.intern .bot fun _ _ h => absurd h List.not_mem_nil
  | var n => intro s _ hs; exact hs.intern (.var n) fun _ _ h => absurd h List.not_mem_nil
  | neg f ih =>
      intro s hempty hs
      refine (ih hempty hs).intern _ fun hlt child hchild => ?_
      have hsize := (grows_add f s).size_le
      have hcons := hempty.consistent .empty (by omega)
      rw [List.mem_singleton.1 hchild]
      exact (hcons.denotes_add (Nat.le_of_lt hlt)).complete
  | conj f g ihf ihg | disj f g ihf ihg =>
      intro s hempty hs
      have hempty' := hempty.trans (grows_add f s)
      refine (ihg hempty' (ihf hempty hs)).intern _ fun hlt child hchild => ?_
      -- there are ids for the nodes of both operands, so these stand for their trees
      have hgrows := grows_add g (s.add f).2
      have hsizeg := hgrows.size_le
      have hsizef := (grows_add f s).size_le
      have hcons := hempty.consistent .empty (by omega)
      have hcons' := hempty'.consistent .empty (by omega)
      rcases List.mem_pair.1 hchild with rfl | rfl
      · exact ((hcons.denotes_add (by omega)).of_grows hgrows).complete
      · exact (hcons'.denotes_add (Nat.le_of_lt hlt)).complete

theorem Acyclic.addAll {fs : List Formula} :
    ∀ {s : Store}, Grows empty s → s.Acyclic → (s.addAll fs).Acyclic := by
  induction fs with
  | nil => intro s _ hs; exact hs
  | cons f fs ih =>
      intro s hempty hs
      exact ih (hempty.trans (grows_add f s)) (hs.add hempty)

/-- **Reading makes no cycles**, also when a text is refused. -/
theorem Acyclic.read {s : Store} (hs : s.Acyclic) (hempty : Grows empty s) (text : Bytes)
    (line : UInt32) : (s.read text line).2.Acyclic := by
  obtain ⟨fs, hfs⟩ := s.exists_read_snd_eq text line
  rw [hfs]
  exact hs.addAll hempty

end Store

end PresenceTable
