/-
  PresenceTable.Proofs.Store.Invariant
  ────────────────────────────────────
  **WHAT EVERY STORE KEEPS.**

  All that anyone does to a store is to intern nodes, one after the other.
  `Grows s t` says that `t` comes from `s` in this way, and each operation
  has one lemma which says that it does nothing else.  What a single
  `intern` keeps is then kept by everything:

    • no node is lost or moved (`Grows.nodes_prefix`),
    • nodes and index describe each other (`Grows.consistent`).

  `WellFormed` asks in addition that the operands of a node stand before
  it.  An operand may be any number, so this is not kept by every `intern`,
  but by those whose operands are stored (`WellFormed.intern`).  What of it
  survives when ids run out is `Navigable`.
-/
import Mathlib.Data.List.Nodup
import Mathlib.Logic.Relation
import PresenceTable.Conversion
import PresenceTable.Proofs.Store.Reader

namespace PresenceTable

/-- The ids of the operands of a node. -/
def Node.children : Node → List NodeId
  | .bot | .var _ => []
  | .neg operand => [operand]
  | .conj left right | .disj left right => [left, right]

/-- Whether a node is a conjunction or a disjunction. -/
def Node.IsFork : Node → Prop
  | .conj _ _ | .disj _ _ => True
  | .bot | .var _ | .neg _ => False

namespace Store

/-! ## §1. Growth. -/

/-- One more node is interned. -/
def Interns (s t : Store) : Prop := ∃ n, t = (s.intern n).2

/-- Any number of nodes are interned, one after the other. -/
def Grows : Store → Store → Prop := Relation.ReflTransGen Interns

theorem Grows.refl (s : Store) : Grows s s := Relation.ReflTransGen.refl

theorem Grows.trans {s t u : Store} (hst : Grows s t) (htu : Grows t u) : Grows s u :=
  Relation.ReflTransGen.trans hst htu

theorem grows_intern (s : Store) (n : Node) : Grows s (s.intern n).2 :=
  Relation.ReflTransGen.single ⟨n, rfl⟩

theorem nodes_prefix_intern (s : Store) (n : Node) :
    s.nodes.toList <+: (s.intern n).2.nodes.toList := by
  unfold intern
  split
  · exact List.prefix_refl _
  · simp

/-- **No node is ever lost, changed or moved.** -/
theorem Grows.nodes_prefix {s t : Store} (h : Grows s t) :
    s.nodes.toList <+: t.nodes.toList := by
  induction h with
  | refl => exact List.prefix_refl _
  | @tail u _ _ hstep ih =>
      obtain ⟨n, rfl⟩ := hstep
      have hone := nodes_prefix_intern u n
      exact ih.trans hone

theorem Grows.size_le {s t : Store} (h : Grows s t) : s.size ≤ t.size :=
  h.nodes_prefix.length_le

theorem Grows.node? {s t : Store} (h : Grows s t) {id : NodeId} {n : Node}
    (hn : s.node? id = some n) : t.node? id = some n := by
  unfold Store.node? at hn ⊢
  rw [← Array.getElem?_toList] at hn ⊢
  obtain ⟨later, hlater⟩ := h.nodes_prefix
  have hlt : id.toNat < s.nodes.toList.length := (List.getElem?_eq_some_iff.1 hn).1
  rw [← hlater, List.getElem?_append_left hlt]
  exact hn

/-! ### The operations only grow a store. -/

theorem grows_add (f : Formula) : ∀ s : Store, Grows s (s.add f).2 := by
  induction f with
  | bot => intro s; exact grows_intern s _
  | var n => intro s; exact grows_intern s _
  | neg f ih =>
      intro s
      have hf := ih s
      exact hf.trans (grows_intern _ _)
  | conj f g ihf ihg | disj f g ihf ihg =>
      intro s
      have hf := ihf s
      have hg := ihg (s.add f).2
      exact (hf.trans hg).trans (grows_intern _ _)

/-- What grows a store step by step grows it. -/
theorem grows_foldl {α : Type} {step : Store → α → Store} (h : ∀ s a, Grows s (step s a))
    (as : List α) : ∀ s : Store, Grows s (as.foldl step s) := by
  induction as with
  | nil => intro s; exact Grows.refl s
  | cons a as ih =>
      intro s
      exact (h s a).trans (ih (step s a))

theorem grows_addAll (fs : List Formula) (s : Store) : Grows s (s.addAll fs) :=
  grows_foldl (fun s f => grows_add f s) fs s

theorem grows_read (s : Store) (text : Bytes) (line : UInt32) :
    Grows s (s.read text line).2 := by
  obtain ⟨fs, hfs⟩ := s.exists_read_snd_eq text line
  rw [hfs]
  exact grows_addAll fs s

/-! ### Elimination of a node with two operands. -/

/-- Elimination of two operands, one after the other, and of the node above
them when both have an answer. -/
def eliminateBoth (erased : Name → Bool) (bound : Nat) (s : Store) (left right : NodeId)
    (combine : Store → NodeId → NodeId → Except Fault NodeId × Store) :
    Except Fault NodeId × Store :=
  match eliminateWithin erased bound s left with
  | (.error fault, s) => (.error fault, s)
  | (.ok left, s) =>
    match eliminateWithin erased bound s right with
    | (.error fault, s) => (.error fault, s)
    | (.ok right, s) => combine s left right

/-- The node above two eliminated operands of a conjunction. -/
def combineConj (s : Store) (left right : NodeId) : Except Fault NodeId × Store :=
  (.ok (s.intern (.conj left right)).1, (s.intern (.conj left right)).2)

/-- The node above two eliminated operands of a disjunction. -/
def combineDisj (s : Store) (left right : NodeId) : Except Fault NodeId × Store :=
  ((s.intern (.disj left right)).2.collapse (s.intern (.disj left right)).1,
    (s.intern (.disj left right)).2)

theorem eliminateWithin_conj {erased : Name → Bool} {bound : Nat} {s : Store}
    {id left right : NodeId} (hn : s.node? id = some (.conj left right)) :
    eliminateWithin erased (bound + 1) s id
      = eliminateBoth erased bound s left right combineConj := by
  rw [eliminateWithin, hn]
  rfl

theorem eliminateWithin_disj {erased : Name → Bool} {bound : Nat} {s : Store}
    {id left right : NodeId} (hn : s.node? id = some (.disj left right)) :
    eliminateWithin erased (bound + 1) s id
      = eliminateBoth erased bound s left right combineDisj := by
  rw [eliminateWithin, hn]
  rfl

/-! ### Elimination interns conjunctions and disjunctions only. -/

/-- A relation between stores that links a store with itself, with what it
becomes when a conjunction or a disjunction is interned, and so on. -/
structure ForkClosed (R : Store → Store → Prop) : Prop where
  refl : ∀ s : Store, R s s
  trans : ∀ {s t u : Store}, R s t → R t u → R s u
  intern : ∀ (s : Store) (n : Node), n.IsFork → R s (s.intern n).2

namespace ForkClosed

variable {R : Store → Store → Prop} {erased : Name → Bool} {bound : Nat}

/-- What the first operand adds stays when the rest is done. -/
theorem left_both (hR : ForkClosed R)
    {combine : Store → NodeId → NodeId → Except Fault NodeId × Store}
    (ih : ∀ (s : Store) (id : NodeId), R s (eliminateWithin erased bound s id).2)
    (hcombine : ∀ (s : Store) (left right : NodeId), R s (combine s left right).2)
    (s : Store) (left right : NodeId) :
    R (eliminateWithin erased bound s left).2
      (eliminateBoth erased bound s left right combine).2 := by
  unfold eliminateBoth
  rcases eliminateWithin erased bound s left with ⟨_ | left', t⟩
  · exact hR.refl t
  · have hright := ih t right
    dsimp only
    rcases hr : eliminateWithin erased bound t right with ⟨_ | right', u⟩
    · rw [hr] at hright
      exact hright
    · rw [hr] at hright
      exact hR.trans hright (hcombine u left' right')

/-- **Elimination does nothing to a store but to intern conjunctions and
disjunctions**, also when a fault ends it. -/
theorem eliminateWithin (hR : ForkClosed R) (erased : Name → Bool) (bound : Nat) :
    ∀ (s : Store) (id : NodeId), R s (Store.eliminateWithin erased bound s id).2 := by
  -- for all stores at once: the second operand is followed in a store that has grown
  induction bound with
  | zero => intro s id; exact hR.refl s
  | succ bound ih =>
      intro s id
      cases hn : s.node? id with
      | none => rw [Store.eliminateWithin, hn]; exact hR.refl s
      | some n =>
          cases n with
          | bot | var => rw [Store.eliminateWithin, hn]; exact hR.refl s
          | neg operand => rw [Store.eliminateWithin, hn]; exact ih s operand
          | conj left right =>
              rw [eliminateWithin_conj hn]
              have hcombine : ∀ (t : Store) (l r : NodeId), R t (combineConj t l r).2 :=
                fun t l r => hR.intern t (.conj l r) trivial
              exact hR.trans (ih s left) (hR.left_both ih hcombine s left right)
          | disj left right =>
              rw [eliminateWithin_disj hn]
              have hcombine : ∀ (t : Store) (l r : NodeId), R t (combineDisj t l r).2 :=
                fun t l r => hR.intern t (.disj l r) trivial
              exact hR.trans (ih s left) (hR.left_both ih hcombine s left right)

end ForkClosed

theorem forkClosed_grows : ForkClosed Grows where
  refl := Grows.refl
  trans := Grows.trans
  intern := fun s n _ => grows_intern s n

theorem grows_combineConj (s : Store) (left right : NodeId) :
    Grows s (combineConj s left right).2 :=
  grows_intern s (.conj left right)

theorem grows_combineDisj (s : Store) (left right : NodeId) :
    Grows s (combineDisj s left right).2 :=
  grows_intern s (.disj left right)

theorem grows_eliminateWithin (erased : Name → Bool) (bound : Nat) (s : Store) (id : NodeId) :
    Grows s (eliminateWithin erased bound s id).2 :=
  forkClosed_grows.eliminateWithin erased bound s id

theorem grows_eliminate (s : Store) (erased : Name → Bool) (id : NodeId) :
    Grows s (s.eliminate erased id).2 :=
  grows_eliminateWithin erased _ s id

theorem grows_judgeCondition (erased : Name → Bool) (s : Store) (path condition : Bytes)
    (line : UInt32) : Grows s (judgeCondition erased s path condition line).2 := by
  have hread := grows_read s condition line
  unfold judgeCondition
  split
  · next h => rw [h] at hread; exact hread
  · next id t h =>
    rw [h] at hread
    have helim := grows_eliminate t erased id
    split
    · next h' => rw [h'] at helim; exact hread.trans helim
    · next h' => rw [h'] at helim; exact hread.trans helim

theorem grows_judge (erased : Name → Bool) (s : Store) (text : Bytes) (line : UInt32) :
    Grows s (judge erased s text line).2 := by
  unfold judge
  split
  · exact Grows.refl s
  · exact Grows.refl s
  · split
    · exact Grows.refl s
    · exact grows_judgeCondition erased s _ _ line

/-! ## §2. Nodes and index. -/

/-- The nodes and the index of a store describe each other, the constant
`bot` has its id, and the variables are counted. -/
structure Consistent (s : Store) : Prop where
  size_le : s.size ≤ UInt32.size
  index_iff : ∀ (n : Node) (id : NodeId), s.index[n]? = some id ↔ s.node? id = some n
  node?_botId : s.node? botId = some .bot
  variableCount_eq : s.variableCount = s.nodes.toList.countP Node.isVar

theorem node?_eq_some_lt {s : Store} {id : NodeId} {n : Node} (h : s.node? id = some n) :
    id.toNat < s.size :=
  (Array.getElem?_eq_some_iff.1 h).1

theorem exists_node? {s : Store} {id : NodeId} (h : id.toNat < s.size) :
    ∃ n, s.node? id = some n :=
  ⟨s.nodes[id.toNat], Array.getElem?_eq_getElem h⟩

/-- A position among few enough nodes has an id. -/
theorem node?_ofNat {s : Store} {i : Nat} (hs : s.size ≤ UInt32.size) (hi : i < s.size) :
    s.node? (UInt32.ofNat i) = some s.nodes[i] := by
  rw [node?, UInt32.toNat_ofNat_of_lt' (Nat.lt_of_lt_of_le hi hs)]
  exact Array.getElem?_eq_getElem hi

/-! ### Interning a node that is stored, and one that is not. -/

theorem intern_of_stored {s : Store} {n : Node} {id : NodeId} (h : s.index[n]? = some id) :
    s.intern n = (id, s) := by
  simp [intern, h]

theorem size_intern_of_new {s : Store} {n : Node} (h : s.index[n]? = none) :
    (s.intern n).2.size = s.size + 1 := by
  simp [intern, h, size]

theorem node?_intern_of_new {s : Store} {n : Node} (h : s.index[n]? = none) (id : NodeId) :
    (s.intern n).2.node? id = if id.toNat = s.size then some n else s.node? id := by
  simp only [intern, h, node?]
  exact Array.getElem?_push

theorem index_intern_of_new {s : Store} {n : Node} (h : s.index[n]? = none) (m : Node) :
    (s.intern n).2.index[m]?
      = if n = m then some (UInt32.ofNat s.size) else s.index[m]? := by
  simp [intern, h, size, Std.ExtTreeMap.getElem?_insert, Std.LawfulEqCmp.compare_eq_iff_eq]

namespace Consistent

theorem empty : Store.empty.Consistent where
  size_le := by decide
  index_iff := by
    intro n id
    show ((∅ : Std.ExtTreeMap Node NodeId).insert .bot botId)[n]? = some id
      ↔ #[Node.bot][id.toNat]? = some n
    rw [Std.ExtTreeMap.getElem?_insert]
    rw [Array.getElem?_singleton]
    by_cases h : Node.bot = n
    · subst h
      simp [botId, ← UInt32.toNat_inj, eq_comm]
    · simp [Std.LawfulEqCmp.compare_eq_iff_eq, h]
  node?_botId := rfl
  variableCount_eq := rfl

variable {s : Store}

/-- A node has one id only. -/
theorem id_unique (hs : s.Consistent) {i j : NodeId} {n : Node}
    (hi : s.node? i = some n) (hj : s.node? j = some n) : i = j := by
  rw [← hs.index_iff] at hi hj
  exact Option.some.inj (hi.symm.trans hj)

theorem node?_eq_bot_iff (hs : s.Consistent) (id : NodeId) :
    s.node? id = some .bot ↔ id = botId := by
  constructor
  · intro h
    exact hs.id_unique h hs.node?_botId
  · rintro rfl
    exact hs.node?_botId

/-- The constant `bot` stands at one position only. -/
theorem getElem?_eq_bot_iff (hs : s.Consistent) (i : Nat) :
    s.nodes[i]? = some .bot ↔ i = botId.toNat := by
  constructor
  · intro h
    obtain ⟨hi, hbot⟩ := Array.getElem?_eq_some_iff.1 h
    have hi' : i < UInt32.size := Nat.lt_of_lt_of_le hi hs.size_le
    have hnode : s.node? (UInt32.ofNat i) = some .bot := by
      rw [node?_ofNat hs.size_le hi, hbot]
    rw [← (hs.node?_eq_bot_iff _).1 hnode, UInt32.toNat_ofNat_of_lt' hi']
  · rintro rfl
    exact hs.node?_botId

/-- Every node that is stored is known to the index. -/
theorem exists_index (hs : s.Consistent) {n : Node} (hn : n ∈ s.nodes.toList) :
    ∃ id, s.index[n]? = some id := by
  obtain ⟨i, hi, rfl⟩ := List.mem_iff_getElem.1 hn
  have hnode := node?_ofNat hs.size_le hi
  exact ⟨UInt32.ofNat i, (hs.index_iff _ _).2 hnode⟩

/-- **Different positions hold different nodes.** -/
theorem nodup (hs : s.Consistent) : s.nodes.toList.Nodup := by
  rw [List.nodup_iff_injective_get]
  -- equal nodes have one id, and different positions have different ids
  intro ⟨i, hi⟩ ⟨j, hj⟩ h
  have hni := node?_ofNat hs.size_le hi
  have hnj := node?_ofNat hs.size_le hj
  have heq : s.nodes[i] = s.nodes[j] := h
  rw [← heq] at hnj
  have hid := congrArg UInt32.toNat (hs.id_unique hni hnj)
  rw [UInt32.toNat_ofNat_of_lt' (Nat.lt_of_lt_of_le hi hs.size_le),
      UInt32.toNat_ofNat_of_lt' (Nat.lt_of_lt_of_le hj hs.size_le)] at hid
  exact Fin.ext hid

/-- **Interning keeps nodes and index together**, as long as there is an id
for the new node. -/
theorem intern (hs : s.Consistent) (n : Node) (hsize : (s.intern n).2.size ≤ UInt32.size) :
    (s.intern n).2.Consistent := by
  cases hnew : s.index[n]? with
  | some id =>
      rw [intern_of_stored hnew]
      exact hs
  | none =>
      rw [size_intern_of_new hnew] at hsize
      have hid : (UInt32.ofNat s.size).toNat = s.size := UInt32.toNat_ofNat_of_lt' hsize
      have hbot : botId.toNat < s.size := node?_eq_some_lt hs.node?_botId
      refine ⟨by rw [size_intern_of_new hnew]; exact hsize, fun m id => ?_, ?_, ?_⟩
      · rw [index_intern_of_new hnew, node?_intern_of_new hnew]
        by_cases hlast : id.toNat = s.size
        · -- the id behind all nodes so far belongs to `n` alone
          have hfree : s.index[m]? ≠ some id := by
            intro h
            have hlt := node?_eq_some_lt ((hs.index_iff m id).1 h)
            omega
          have hlast' : UInt32.ofNat s.size = id := by
            rw [← UInt32.toNat_inj, hid, hlast]
          simp [hlast, hlast', hfree]
        · -- the other ids are of the nodes they were of
          rw [if_neg hlast, ← hs.index_iff]
          have hother : UInt32.ofNat s.size ≠ id := by
            rintro rfl
            exact hlast hid
          split
          · next h => subst h; simp [hnew, hother]
          · rfl
      · rw [node?_intern_of_new hnew, if_neg (by omega)]
        exact hs.node?_botId
      · simp [Store.intern, hnew, hs.variableCount_eq, List.countP_append]

/-- The node that was interned is stored under its id. -/
theorem node?_intern (hs : s.Consistent) (n : Node)
    (hsize : (s.intern n).2.size ≤ UInt32.size) :
    (s.intern n).2.node? (s.intern n).1 = some n := by
  cases hnew : s.index[n]? with
  | some id =>
      rw [intern_of_stored hnew]
      exact (hs.index_iff n id).1 hnew
  | none =>
      rw [size_intern_of_new hnew] at hsize
      exact node?_intern_self s n hnew hsize

end Consistent

/-- **What interning keeps, every growth keeps.** -/
theorem Grows.consistent {s t : Store} (h : Grows s t) (hs : s.Consistent)
    (hsize : t.size ≤ UInt32.size) : t.Consistent := by
  induction h with
  | refl => exact hs
  | @tail u _ _ hstep ih =>
      obtain ⟨n, rfl⟩ := hstep
      have hle := (grows_intern u n).size_le
      have hu : u.Consistent := ih (by omega)
      exact hu.intern n hsize

/-! ## §3. Operands stand before the nodes they belong to. -/

/-- The ids that a store gives belong to nodes, and from a node they lead
down, to smaller ids.  A store may hold more nodes than there are ids, and
then nodes share an id; but no way down goes astray. -/
structure Navigable (s : Store) : Prop where
  index_lt : ∀ (n : Node) (id : NodeId), s.index[n]? = some id → id.toNat < s.size
  descends : ∀ (id : NodeId) (n : Node), s.node? id = some n →
    ∀ child ∈ n.children, child.toNat < id.toNat

/-- When ids run out they begin anew, which does not make them larger. -/
theorem toNat_ofNat_le (i : Nat) : (UInt32.ofNat i).toNat ≤ i :=
  Nat.mod_le i UInt32.size

/-- The id of an interned node belongs to a node. -/
theorem Navigable.intern_lt {s : Store} (hs : s.Navigable) (n : Node) :
    (s.intern n).1.toNat < (s.intern n).2.size := by
  cases hnew : s.index[n]? with
  | some id =>
      rw [intern_of_stored hnew]
      exact hs.index_lt n id hnew
  | none =>
      rw [size_intern_of_new hnew]
      have hid : (s.intern n).1 = UInt32.ofNat s.size := by simp [Store.intern, hnew, size]
      rw [hid]
      exact Nat.lt_succ_of_le (toNat_ofNat_le s.size)

/-- A node may be interned when its operands are stored, however many nodes
there are. -/
theorem Navigable.intern {s : Store} (hs : s.Navigable) (n : Node)
    (hchildren : ∀ child ∈ n.children, child.toNat < s.size) :
    (s.intern n).2.Navigable := by
  cases hnew : s.index[n]? with
  | some _ =>
      rw [intern_of_stored hnew]
      exact hs
  | none =>
      refine ⟨fun m id hm => ?_, fun id m hm child hchild => ?_⟩
      · rw [size_intern_of_new hnew]
        rw [index_intern_of_new hnew] at hm
        by_cases heq : n = m
        · rw [if_pos heq] at hm
          cases hm
          exact Nat.lt_succ_of_le (toNat_ofNat_le s.size)
        · rw [if_neg heq] at hm
          exact Nat.lt_succ_of_lt (hs.index_lt m id hm)
      · rw [node?_intern_of_new hnew] at hm
        by_cases hlast : id.toNat = s.size
        · -- the new node is the last one, so whatever is stored stands before it
          rw [if_pos hlast] at hm
          cases hm
          rw [hlast]
          exact hchildren child hchild
        · rw [if_neg hlast] at hm
          exact hs.descends id m hm child hchild

/-- A consistent store in which ids lead down, to smaller ids. -/
structure WellFormed (s : Store) : Prop extends s.Consistent where
  descends : ∀ (id : NodeId) (n : Node), s.node? id = some n →
    ∀ child ∈ n.children, child.toNat < id.toNat

theorem WellFormed.navigable {s : Store} (hs : s.WellFormed) : s.Navigable where
  index_lt n id h := node?_eq_some_lt ((hs.index_iff n id).1 h)
  descends := hs.descends

theorem wellFormed_empty : Store.empty.WellFormed where
  toConsistent := Consistent.empty
  descends := by
    intro id n h child hchild
    have hbot : n = .bot := by
      have hmem : n ∈ [Node.bot] := List.mem_of_getElem? (Array.getElem?_toList.trans h)
      exact List.mem_singleton.1 hmem
    rw [hbot] at hchild
    exact absurd hchild List.not_mem_nil

theorem WellFormed.intern {s : Store} (hs : s.WellFormed) (n : Node)
    (hsize : (s.intern n).2.size ≤ UInt32.size)
    (hchildren : ∀ child ∈ n.children, child.toNat < s.size) :
    (s.intern n).2.WellFormed where
  toConsistent := hs.toConsistent.intern n hsize
  descends := (hs.navigable.intern n hchildren).descends

end Store

end PresenceTable
