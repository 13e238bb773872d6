/-
  PresenceTable.Proofs.Store.Navigation
  ─────────────────────────────────────
  **NO WAY DOWN GOES ASTRAY.**

  A store that ran out of ids answers with ids of other nodes, and what it
  says about trees is worth nothing then.  Still every id that it gives
  belongs to a node, and every way down ends: nodes behind the last id are
  never met, and the others were made while ids were enough.  So reading
  and elimination never fault, however many nodes there are.

  Main results:
    * `Navigable.read` — what is read has a node;
    * `Navigable.eliminate` — elimination has an answer.
-/
import PresenceTable.Proofs.Store.Invariant

namespace PresenceTable

namespace Store

/-! ## §1. Storing and reading. -/

/-- Storing a tree answers with the id of a node. -/
theorem Navigable.add {f : Formula} :
    ∀ {s : Store}, s.Navigable →
      (s.add f).2.Navigable ∧ (s.add f).1.toNat < (s.add f).2.size := by
  induction f with
  | bot =>
      intro s hs
      exact ⟨hs.intern .bot fun _ h => absurd h List.not_mem_nil, hs.intern_lt .bot⟩
  | var n =>
      intro s hs
      exact ⟨hs.intern (.var n) fun _ h => absurd h List.not_mem_nil, hs.intern_lt (.var n)⟩
  | neg f ih =>
      intro s hs
      obtain ⟨hs', hlt⟩ := ih hs
      refine ⟨hs'.intern _ fun child hchild => ?_, hs'.intern_lt _⟩
      rw [List.mem_singleton.1 hchild]
      exact hlt
  | conj f g ihf ihg | disj f g ihf ihg =>
      intro s hs
      obtain ⟨hs', hleft⟩ := ihf hs
      obtain ⟨hs'', hright⟩ := ihg hs'
      have hkept := (grows_add g (s.add f).2).size_le
      refine ⟨hs''.intern _ fun child hchild => ?_, hs''.intern_lt _⟩
      rcases List.mem_pair.1 hchild with rfl | rfl
      · exact Nat.lt_of_lt_of_le hleft hkept
      · exact hright

theorem Navigable.addAll {fs : List Formula} :
    ∀ {s : Store}, s.Navigable → (s.addAll fs).Navigable := by
  induction fs with
  | nil => intro s hs; exact hs
  | cons f fs ih => intro s hs; exact ih hs.add.1

/-- **What is read has a node**, and what is refused leaves no id astray. -/
theorem Navigable.read {s : Store} (hs : s.Navigable) (text : Bytes) (line : UInt32) :
    (s.read text line).2.Navigable
      ∧ ∀ id, (s.read text line).1 = .ok id → id.toNat < (s.read text line).2.size := by
  rw [read_eq_take]
  cases Formula.ofText text line with
  | ok f =>
      refine ⟨(hs.add (f := f)).1, fun id hid => ?_⟩
      cases hid
      exact hs.add.2
  | error refusal => exact ⟨hs.addAll, fun id hid => by cases hid⟩

/-! ## §2. Elimination. -/

/-- The answer is the id of a node in the navigable store that comes with it. -/
def Arrives (result : Except Fault NodeId × Store) : Prop :=
  ∃ id, result.1 = .ok id ∧ result.2.Navigable ∧ id.toNat < result.2.size

theorem arrives_combineConj {t : Store} (ht : t.Navigable) {left right : NodeId}
    (hleft : left.toNat < t.size) (hright : right.toNat < t.size) :
    Arrives (combineConj t left right) := by
  refine ⟨_, rfl, ht.intern _ fun child hchild => ?_, ht.intern_lt _⟩
  rcases List.mem_pair.1 hchild with rfl | rfl
  · exact hleft
  · exact hright

/-- An id of a node collapses to the id of a node. -/
theorem Navigable.collapse {s : Store} (hs : s.Navigable) {id : NodeId}
    (hid : id.toNat < s.size) : ∃ id', s.collapse id = .ok id' ∧ id'.toNat < s.size := by
  obtain ⟨n, hn⟩ := exists_node? hid
  unfold Store.collapse
  rw [hn]
  cases n with
  | disj left right =>
      have hleft := hs.descends id _ hn left (by simp [Node.children])
      have hright := hs.descends id _ hn right (by simp [Node.children])
      refine ⟨_, rfl, ?_⟩
      split
      · exact Nat.lt_trans hright hid
      · split
        · exact Nat.lt_trans hleft hid
        · exact hid
  | _ => exact ⟨id, rfl, hid⟩

theorem arrives_combineDisj {t : Store} (ht : t.Navigable) {left right : NodeId}
    (hleft : left.toNat < t.size) (hright : right.toNat < t.size) :
    Arrives (combineDisj t left right) := by
  have hnav : (t.intern (.disj left right)).2.Navigable := by
    refine ht.intern _ fun child hchild => ?_
    rcases List.mem_pair.1 hchild with rfl | rfl
    · exact hleft
    · exact hright
  -- the id may be that of another node, when ids have run out
  obtain ⟨id, hok, hlt⟩ := hnav.collapse (ht.intern_lt (.disj left right))
  exact ⟨id, hok, hnav, hlt⟩

/-- Two operands, one after the other, and the node above their answers. -/
theorem arrives_both {erased : Name → Bool} {bound : Nat}
    {combine : Store → NodeId → NodeId → Except Fault NodeId × Store}
    (ih : ∀ (s : Store) (id : NodeId), s.Navigable → id.toNat < s.size → id.toNat < bound →
      Arrives (eliminateWithin erased bound s id))
    (hcombine : ∀ (t : Store), t.Navigable → ∀ left right : NodeId, left.toNat < t.size →
      right.toNat < t.size → Arrives (combine t left right))
    {s : Store} {left right : NodeId} (hs : s.Navigable) (hleft : left.toNat < s.size)
    (hright : right.toNat < s.size) (hboundl : left.toNat < bound)
    (hboundr : right.toNat < bound) :
    Arrives (eliminateBoth erased bound s left right combine) := by
  have hkept := (grows_eliminateWithin erased bound s left).size_le
  obtain ⟨left', hok, ht, hleft'⟩ := ih s left hs hleft hboundl
  unfold eliminateBoth
  rcases hl : eliminateWithin erased bound s left with ⟨answer, t⟩
  rw [hl] at hok ht hleft' hkept
  cases hok
  -- the second operand still has its node in the larger store
  have hkept' := (grows_eliminateWithin erased bound t right).size_le
  obtain ⟨right', hok, hu, hright'⟩ :=
    ih t right ht (Nat.lt_of_lt_of_le hright hkept) hboundr
  dsimp only
  rcases hr : eliminateWithin erased bound t right with ⟨answer, u⟩
  rw [hr] at hok hu hright' hkept'
  cases hok
  exact hcombine u hu left' right' (Nat.lt_of_lt_of_le hleft' hkept') hright'

/-- The bound is not reached: with each step down it falls by one, and the
id by at least one. -/
theorem arrives_eliminateWithin (erased : Name → Bool) (bound : Nat) :
    ∀ (s : Store) (id : NodeId), s.Navigable → id.toNat < s.size → id.toNat < bound →
      Arrives (eliminateWithin erased bound s id) := by
  induction bound with
  | zero => intro s id _ _ hbound; exact absurd hbound (Nat.not_lt_zero _)
  | succ bound ih =>
      intro s id hs hid hbound
      obtain ⟨n, hn⟩ := exists_node? hid
      have hdown := hs.descends id n hn
      cases n with
      | bot =>
          rw [eliminateWithin, hn]
          exact ⟨id, rfl, hs, hid⟩
      | var n =>
          rw [eliminateWithin, hn]
          refine ⟨_, rfl, hs, ?_⟩
          split
          · exact Nat.lt_of_le_of_lt (Nat.zero_le _) hid
          · exact hid
      | neg operand =>
          have hlt := hdown operand (by simp [Node.children])
          rw [eliminateWithin, hn]
          exact ih s operand hs (Nat.lt_trans hlt hid) (by omega)
      | conj left right =>
          have hleft := hdown left (by simp [Node.children])
          have hright := hdown right (by simp [Node.children])
          rw [eliminateWithin_conj hn]
          exact arrives_both ih (fun _ ht _ _ => arrives_combineConj ht) hs
            (by omega) (by omega) (by omega) (by omega)
      | disj left right =>
          have hleft := hdown left (by simp [Node.children])
          have hright := hdown right (by simp [Node.children])
          rw [eliminateWithin_disj hn]
          exact arrives_both ih (fun _ ht _ _ => arrives_combineDisj ht) hs
            (by omega) (by omega) (by omega) (by omega)

/-- **Elimination has an answer**, whatever the size of the store. -/
theorem Navigable.eliminate {s : Store} (hs : s.Navigable) (erased : Name → Bool)
    {id : NodeId} (hid : id.toNat < s.size) : Arrives (s.eliminate erased id) :=
  arrives_eliminateWithin erased _ s id hs hid (by omega)

end Store

end PresenceTable
