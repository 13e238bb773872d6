/-
  PresenceTable.Proofs.Store.Termination
  ──────────────────────────────────────
  **ELIMINATION COMES TO AN END.**

  In a store without cycles every way down ends.  But elimination follows the
  ways down in a store that grows at the same time, and an id that was unknown
  at the start can belong to a new node when it is met.  What keeps it from
  following new nodes for ever is what these nodes are:

      each new node is the stage of a fork that was there at the start,

  that is, of a conjunction or disjunction, and stands for what elimination
  stores last for it.  A fork has one stage, and a stage is its own stage, so
  there are no more new nodes than old ones and no way down is longer than
  twice the store.

  The ids of operands need not be known, and ids may run out on the way: then
  the nodes that can be met are those that were made before.

  Main results:
    * `Staged.length_le` — a way down while elimination is at work;
    * `proceeds_eliminateWithin` — elimination, one id after the other;
    * `Acyclic.eliminate` — elimination ends, and makes no cycles.
-/
import Mathlib.Tactic.Choose
import PresenceTable.Proofs.Store.Acyclic
import PresenceTable.Proofs.Store.Elimination

namespace PresenceTable

/-! ## §1. Stages. -/

/-- The second tree is what elimination stores last for the first one, before
a constant is left out of it. -/
inductive Formula.HasStage (erased : Name → Bool) : Formula → Formula → Prop where
  | conj (f g : Formula) :
      HasStage erased (.conj f g) (.conj (f.eliminate erased) (g.eliminate erased))
  | disj (f g : Formula) :
      HasStage erased (.disj f g) (.disj (f.eliminate erased) (g.eliminate erased))

namespace Formula

variable {erased : Name → Bool}

theorem HasStage.unique {f stage other : Formula} (h : f.HasStage erased stage)
    (hother : f.HasStage erased other) : stage = other := by
  cases h <;> cases hother <;> rfl

/-- **A stage is its own stage**, as its operands have been eliminated. -/
theorem HasStage.again {f stage : Formula} (h : f.HasStage erased stage) :
    stage.HasStage erased stage := by
  have hagain : ∀ f : Formula, (f.eliminate erased).eliminate erased = f.eliminate erased :=
    fun f => eliminate_of_normal erased (normal_eliminate erased f)
  cases h with
  | conj f g =>
      have hstage : HasStage erased _ _ := .conj (f.eliminate erased) (g.eliminate erased)
      rw [hagain, hagain] at hstage
      exact hstage
  | disj f g =>
      have hstage : HasStage erased _ _ := .disj (f.eliminate erased) (g.eliminate erased)
      rw [hagain, hagain] at hstage
      exact hstage

end Formula

namespace Store

/-- The second id stands for the stage of what the first one stands for. -/
def IsStage (erased : Name → Bool) (s : Store) (id stage : NodeId) : Prop :=
  ∃ f g, s.Denotes id f ∧ f.HasStage erased g ∧ s.Denotes stage g

theorem IsStage.of_grows {erased : Name → Bool} {s t : Store} (hgrows : Grows s t)
    {id stage : NodeId} (h : s.IsStage erased id stage) : t.IsStage erased id stage := by
  obtain ⟨f, g, hf, hstage, hg⟩ := h
  exact ⟨f, g, hf.of_grows hgrows, hstage, hg.of_grows hgrows⟩

/-! ### Ids and trees when ids have run out. -/

/-- The nodes that have ids are those of a consistent store. -/
theorem Grows.exists_consistent {s : Store} (h : Grows empty s) :
    ∃ t : Store, t.Consistent ∧ ∀ id, t.node? id = s.node? id := by
  induction h with
  | refl => exact ⟨empty, .empty, fun _ => rfl⟩
  | @tail u v hu hstep ih =>
      obtain ⟨n, rfl⟩ := hstep
      by_cases hsize : (u.intern n).2.size ≤ UInt32.size
      · exact ⟨_, (Grows.trans hu (grows_intern u n)).consistent .empty hsize, fun _ => rfl⟩
      · obtain ⟨t, ht, hnodes⟩ := ih
        refine ⟨t, ht, fun id => ?_⟩
        rw [hnodes]
        cases hnew : u.index[n]? with
        | some _ => rw [intern_of_stored hnew]
        | none =>
            -- the new node stands behind the last id
            rw [size_intern_of_new hnew] at hsize
            have hlt : id.toNat < UInt32.size := id.toNat_lt
            rw [node?_intern_of_new hnew, if_neg (by omega)]

/-- A tree has one id only, also when ids have run out. -/
theorem Grows.denotes_id_unique {s : Store} (h : Grows empty s) {i j : NodeId} {f : Formula}
    (hi : s.Denotes i f) (hj : s.Denotes j f) : i = j := by
  obtain ⟨t, ht, hnodes⟩ := h.exists_consistent
  have hto : ∀ (id : NodeId) (n : Node), s.node? id = some n → t.node? id = some n :=
    fun id _ hn => (hnodes id).trans hn
  exact (hi.of_nodes hto).id_unique ht (hj.of_nodes hto)

/-- A fork has one stage. -/
theorem IsStage.unique {erased : Name → Bool} {s : Store} (hempty : Grows empty s)
    {id stage other : NodeId} (h : s.IsStage erased id stage)
    (hother : s.IsStage erased id other) : stage = other := by
  obtain ⟨f, g, hf, hfg, hg⟩ := h
  obtain ⟨f', g', hf', hfg', hg'⟩ := hother
  obtain rfl := hf.unique hf'
  obtain rfl := hfg.unique hfg'
  exact hempty.denotes_id_unique hg hg'

/-! ## §2. While elimination is at work. -/

/-- What a store has become while something is eliminated in it. -/
structure Staged (erased : Name → Bool) (s t : Store) : Prop where
  grows : Grows s t
  acyclic : t.Acyclic
  stages : ∀ j : NodeId, s.size ≤ j.toNat → j.toNat < t.size →
    ∃ i : NodeId, i.toNat < s.size ∧ t.IsStage erased i j

namespace Staged

variable {erased : Name → Bool} {s t : Store}

theorem refl (hs : s.Acyclic) : Staged erased s s where
  grows := .refl s
  acyclic := hs
  stages _ hle hlt := absurd hlt (Nat.not_lt.2 hle)

/-- **A way down while elimination is at work** is no longer than twice the
store at the start. -/
theorem length_le (h : Staged erased s t) (hempty : Grows empty s) {met : List NodeId}
    {id : NodeId} (hway : WayDown t met id) : met.length ≤ 2 * s.size := by
  have hlt : ∀ i ∈ met, i.toNat < t.size := by
    intro i hi
    obtain ⟨n, hn⟩ := hway.exists_node i hi
    exact node?_eq_some_lt hn
  -- an old node has its own slot, a new one that of the fork that it is the stage of
  choose! fork hfork using h.stages
  refine length_le_of_slots hway.nodup
    (fun i => if i.toNat < s.size then i.toNat else s.size + (fork i).toNat) ?_ ?_
  · intro i hi j hj heq
    by_cases hiold : i.toNat < s.size
    · by_cases hjold : j.toNat < s.size
      · rw [if_pos hiold, if_pos hjold] at heq
        exact UInt32.toNat_inj.1 heq
      · rw [if_pos hiold, if_neg hjold] at heq
        omega
    · by_cases hjold : j.toNat < s.size
      · rw [if_neg hiold, if_pos hjold] at heq
        omega
      · rw [if_neg hiold, if_neg hjold] at heq
        have hsame : fork i = fork j := UInt32.toNat_inj.1 (Nat.add_left_cancel heq)
        obtain ⟨-, histage⟩ := hfork i (Nat.not_lt.1 hiold) (hlt i hi)
        obtain ⟨-, hjstage⟩ := hfork j (Nat.not_lt.1 hjold) (hlt j hj)
        exact histage.unique (hempty.trans h.grows) (hsame ▸ hjstage)
  · intro i hi
    split
    · omega
    · next hnew =>
      have hold := (hfork i (Nat.not_lt.1 hnew) (hlt i hi)).1
      omega

/-- The stage of a new node is that of the fork which the node is the stage of. -/
theorem exists_fork (h : Staged erased s t) {id : NodeId} {f g : Formula}
    (hid : t.Denotes id f) (hstage : f.HasStage erased g) :
    ∃ i f', i.toNat < s.size ∧ t.Denotes i f' ∧ f'.HasStage erased g := by
  by_cases hold : id.toNat < s.size
  · exact ⟨id, f, hold, hid, hstage⟩
  · obtain ⟨i, hi, f', f'', hf', hstage', hf''⟩ := h.stages id (Nat.not_lt.1 hold) hid.lt
    obtain rfl := hid.unique hf''
    rw [hstage.unique hstage'.again]
    exact ⟨i, f', hi, hf', hstage'⟩

/-- **The stage of a fork may be stored.**  When there is no id for it, nothing
needs to be known about it. -/
theorem intern (h : Staged erased s t) {n : Node} (id : NodeId)
    (hn : t.size < UInt32.size →
      ∃ f g, t.Denotes id f ∧ f.HasStage erased g ∧ t.TopOf n g) :
    Staged erased s (t.intern n).2 := by
  have hgrows := grows_intern t n
  have hacyclic : (t.intern n).2.Acyclic := h.acyclic.intern n fun hlt => by
    obtain ⟨_, _, -, -, htop⟩ := hn hlt
    exact htop.complete
  refine ⟨h.grows.trans hgrows, hacyclic, fun j hle hlt => ?_⟩
  by_cases hold : j.toNat < t.size
  · obtain ⟨i, hi, hstage⟩ := h.stages j hle hold
    exact ⟨i, hi, hstage.of_grows hgrows⟩
  · cases hnew : t.index[n]? with
    | some _ =>
        rw [intern_of_stored hnew] at hlt
        exact absurd hlt hold
    | none =>
        rw [size_intern_of_new hnew] at hlt
        have hlast : j.toNat = t.size := by omega
        obtain ⟨f, g, hid, hstage, htop⟩ := hn (hlast ▸ j.toNat_lt)
        obtain ⟨i, f', hi, hf', hstage'⟩ := h.exists_fork hid hstage
        refine ⟨i, hi, f', g, hf'.of_grows hgrows, hstage', denotes_iff.2 ⟨n, ?_, ?_⟩⟩
        · rw [node?_intern_of_new hnew, if_pos hlast]
        · exact htop.of_grows hgrows

end Staged

/-! ## §3. Elimination, one id after the other. -/

/-- What comes of eliminating an id: nothing but stages is stored, and the end
is reached.  An answer is right if there are ids for all nodes. -/
structure Proceeds (erased : Name → Bool) (s : Store) (id : NodeId)
    (result : Except Fault NodeId × Store) : Prop where
  staged : Staged erased s result.2
  ends : result.1 ≠ .error .endless
  answers : ∀ answer, result.1 = .ok answer → result.2.size ≤ UInt32.size →
    ∃ f, result.2.Denotes id f ∧ result.2.Denotes answer (f.eliminate erased)

/-- What is known when the operands of a node have been eliminated. -/
structure Combines (erased : Name → Bool) (t : Store) (left right left' right' : NodeId)
    (f g : Formula) : Prop where
  left : t.Denotes left f
  right : t.Denotes right g
  left' : t.Denotes left' (f.eliminate erased)
  right' : t.Denotes right' (g.eliminate erased)

section Elimination

variable {erased : Name → Bool} {s t : Store} {id left right left' right' : NodeId}

theorem proceeds_combineConj (hempty : Grows empty s) (ht : Staged erased s t)
    (hn : t.node? id = some (.conj left right))
    (hboth : t.size ≤ UInt32.size → ∃ f g, Combines erased t left right left' right' f g) :
    Proceeds erased s id (combineConj t left' right') := by
  have hgrows := grows_intern t (.conj left' right')
  refine ⟨ht.intern id fun hlt => ?_, fun h => (by cases h), fun answer hanswer hsize => ?_⟩
  · obtain ⟨f, g, h⟩ := hboth (Nat.le_of_lt hlt)
    exact ⟨.conj f g, _, ⟨left, right, hn, h.left, h.right⟩, .conj f g, .conj h.left' h.right'⟩
  · cases hanswer
    have hsize' : t.size ≤ UInt32.size := Nat.le_trans hgrows.size_le hsize
    obtain ⟨f, g, h⟩ := hboth hsize'
    have hcons := (hempty.trans ht.grows).consistent .empty hsize'
    refine ⟨.conj f g, ?_, hcons.denotes_intern (.conj h.left' h.right') hsize⟩
    exact ⟨left, right, hgrows.node? hn, h.left.of_grows hgrows, h.right.of_grows hgrows⟩

theorem collapse_ne_endless (s : Store) (id : NodeId) : s.collapse id ≠ .error .endless := by
  unfold collapse
  split <;> simp

theorem proceeds_combineDisj (hempty : Grows empty s) (ht : Staged erased s t)
    (hn : t.node? id = some (.disj left right))
    (hboth : t.size ≤ UInt32.size → ∃ f g, Combines erased t left right left' right' f g) :
    Proceeds erased s id (combineDisj t left' right') := by
  have hgrows := grows_intern t (.disj left' right')
  refine ⟨ht.intern id fun hlt => ?_, collapse_ne_endless _ _,
    fun answer hanswer hsize => ?_⟩
  · obtain ⟨f, g, h⟩ := hboth (Nat.le_of_lt hlt)
    exact ⟨.disj f g, _, ⟨left, right, hn, h.left, h.right⟩, .disj f g, .disj h.left' h.right'⟩
  · have hsize' : t.size ≤ UInt32.size := Nat.le_trans hgrows.size_le hsize
    obtain ⟨f, g, h⟩ := hboth hsize'
    have hempty' := hempty.trans ht.grows
    have hcons := hempty'.consistent .empty hsize'
    have hcons' := (hempty'.trans hgrows).consistent .empty hsize
    obtain ⟨id', hok, hden⟩ := hcons'.collapse (hcons.node?_intern (.disj left' right') hsize)
      (h.left'.of_grows hgrows) (h.right'.of_grows hgrows)
    cases hok.symm.trans hanswer
    refine ⟨.disj f g, ?_, hden⟩
    exact ⟨left, right, hgrows.node? hn, h.left.of_grows hgrows, h.right.of_grows hgrows⟩

/-- Elimination of any id within this bound, at the end of a way down that is
so long that no bound is needed further down. -/
def ProceedsWithin (erased : Name → Bool) (s : Store) (bound : Nat) : Prop :=
  ∀ (t : Store) (met : List NodeId) (id : NodeId), Staged erased s t → WayDown t met id →
    2 * s.size < bound + met.length → Proceeds erased s id (eliminateWithin erased bound t id)

/-- **Two operands, one after the other**, and the node above their answers. -/
theorem proceeds_both {bound : Nat} {met : List NodeId} {n : Node}
    {combine : Store → NodeId → NodeId → Except Fault NodeId × Store}
    (ih : ProceedsWithin erased s bound)
    (hcombine : ∀ (t : Store) (left' right' : NodeId), Staged erased s t → t.node? id = some n →
      (t.size ≤ UInt32.size → ∃ f g, Combines erased t left right left' right' f g) →
      Proceeds erased s id (combine t left' right'))
    (ht : Staged erased s t) (hn : t.node? id = some n) (hleft : WayDown t met left)
    (hright : WayDown t met right) (hbound : 2 * s.size < bound + met.length) :
    Proceeds erased s id (eliminateBoth erased bound t left right combine) := by
  have hgrows := grows_eliminateWithin erased bound t left
  have hfirst := ih t met left ht hleft hbound
  unfold eliminateBoth
  rcases hl : eliminateWithin erased bound t left with ⟨fault | left', u⟩
  · rw [hl] at hfirst
    exact ⟨hfirst.staged, fun h => hfirst.ends (by cases h; rfl), fun _ h => by cases h⟩
  rw [hl] at hfirst hgrows
  dsimp only
  -- the second operand is followed in the larger store, by the same way down
  have hgrows' := grows_eliminateWithin erased bound u right
  have hsecond := ih u met right hfirst.staged (hright.of_grows hgrows) hbound
  rcases hr : eliminateWithin erased bound u right with ⟨fault | right', v⟩
  · rw [hr] at hsecond
    exact ⟨hsecond.staged, fun h => hsecond.ends (by cases h; rfl), fun _ h => by cases h⟩
  rw [hr] at hsecond hgrows'
  dsimp only
  refine hcombine v left' right' hsecond.staged (hgrows'.node? (hgrows.node? hn)) fun hsize => ?_
  obtain ⟨f, hf, hf'⟩ := hfirst.answers left' rfl (Nat.le_trans hgrows'.size_le hsize)
  obtain ⟨g, hg, hg'⟩ := hsecond.answers right' rfl hsize
  exact ⟨f, g, hf.of_grows hgrows', hg, hf'.of_grows hgrows', hg'⟩

/-- **Elimination, one id after the other.**  The bound is not reached: with
each step down it falls by one, and the way down becomes longer by one. -/
theorem proceeds_eliminateWithin (hempty : Grows empty s) (bound : Nat) :
    ProceedsWithin erased s bound := by
  induction bound with
  | zero =>
      intro t met id ht hway hbound
      have hle := ht.length_le hempty hway
      omega
  | succ bound ih =>
      intro t met id ht hway hbound
      have hdown : ∀ child, t.Child id child → WayDown t (id :: met) child :=
        fun child hchild => hway.step ht.acyclic hchild
      have hbound' : 2 * s.size < bound + (id :: met).length := by
        rw [List.length_cons]
        omega
      cases hn : t.node? id with
      | none =>
          rw [eliminateWithin, hn]
          exact ⟨ht, by simp, fun _ h => by cases h⟩
      | some n =>
          cases n with
          | bot =>
              rw [eliminateWithin, hn]
              refine ⟨ht, by simp, fun answer hanswer _ => ?_⟩
              cases hanswer
              exact ⟨.bot, hn, hn⟩
          | var n =>
              rw [eliminateWithin, hn]
              refine ⟨ht, by simp, fun answer hanswer hsize => ?_⟩
              have hcons := (hempty.trans ht.grows).consistent .empty hsize
              have hvar : t.Denotes id (.var n) := hn
              cases hanswer
              refine ⟨.var n, hvar, ?_⟩
              cases herased : erased n with
              | true => simpa [Formula.eliminate, herased] using hcons.denotes_botId
              | false => simpa [Formula.eliminate, herased] using hvar
          | neg operand =>
              have hgrows := grows_eliminateWithin erased bound t operand
              have hoperand := ih t (id :: met) operand ht
                (hdown operand ⟨_, hn, by simp [Node.children]⟩) hbound'
              rw [eliminateWithin, hn]
              refine ⟨hoperand.staged, hoperand.ends, fun answer hanswer hsize => ?_⟩
              obtain ⟨f, hf, hf'⟩ := hoperand.answers answer hanswer hsize
              exact ⟨.neg f, ⟨operand, hgrows.node? hn, hf⟩, hf'⟩
          | conj left right =>
              have hleft := hdown left ⟨_, hn, by simp [Node.children]⟩
              have hright := hdown right ⟨_, hn, by simp [Node.children]⟩
              rw [eliminateWithin_conj hn]
              exact proceeds_both ih (fun _ _ _ => proceeds_combineConj hempty) ht hn hleft hright
                hbound'
          | disj left right =>
              have hleft := hdown left ⟨_, hn, by simp [Node.children]⟩
              have hright := hdown right ⟨_, hn, by simp [Node.children]⟩
              rw [eliminateWithin_disj hn]
              exact proceeds_both ih (fun _ _ _ => proceeds_combineDisj hempty) ht hn hleft hright
                hbound'

end Elimination

/-- **Elimination ends, and makes no cycles**, whatever ids are unknown. -/
theorem Acyclic.eliminate {s : Store} (hs : s.Acyclic) (hempty : Grows empty s)
    (erased : Name → Bool) (id : NodeId) : Proceeds erased s id (s.eliminate erased id) :=
  proceeds_eliminateWithin hempty _ s [] id (.refl hs) (.nil s id) (by simp)

end Store

end PresenceTable
