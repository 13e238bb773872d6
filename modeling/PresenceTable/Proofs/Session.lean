/-
  PresenceTable.Proofs.Session
  ────────────────────────────
  **STORES THROUGHOUT A SESSION.**

  A session asks a new store for any number of things in any order: nodes
  with operands that may or may not exist, texts that may or may not be
  read, eliminations and lines of a listing.  One request does nothing but
  intern nodes, so nodes and index agree after any session; and if no node
  was asked for before its operands existed, all ids lead down.

  Main results:
    * `grows_serve` / `WellFormed.serve` — what one request keeps;
    * `consistent_serveAll` / `WellFormed.serveAll` — what a session keeps;
    * `session_invariant` — the invariant, field by field.
-/
import PresenceTable.Proofs.Conversion

namespace PresenceTable

/-! ## §1. Requests. -/

/-- What a store can be asked for. -/
inductive Request where
  /-- The id of the constant `bot`. -/
  | bot
  /-- The id of a variable. -/
  | var (name : Bytes)
  /-- The id of a negation. -/
  | neg (operand : NodeId)
  /-- The id of a conjunction. -/
  | conj (left right : NodeId)
  /-- The id of a disjunction. -/
  | disj (left right : NodeId)
  /-- The id of the condition that a text spells. -/
  | read (text : Bytes) (line : UInt32)
  /-- The id of a condition after elimination. -/
  | eliminate (types : TypeTable) (id : NodeId)
  /-- The conversion of a line of a listing. -/
  | convert (types : TypeTable) (text : Bytes) (line : UInt32)

/-- The operands that are named in a request exist. -/
def Request.Grounded (s : Store) : Request → Prop
  | .neg operand => operand.toNat < s.size
  | .conj left right | .disj left right => left.toNat < s.size ∧ right.toNat < s.size
  | .bot | .var _ | .read _ _ | .eliminate _ _ | .convert _ _ _ => True

namespace Store

/-- The store after a request, whether it succeeded or not. -/
def serve (s : Store) : Request → Store
  | .bot => (s.intern .bot).2
  | .var name =>
      match s.var name with
      | .ok (_, s) => s
      | .error _ => s
  | .neg operand => (s.intern (.neg operand)).2
  | .conj left right => (s.intern (.conj left right)).2
  | .disj left right => (s.intern (.disj left right)).2
  | .read text line => (s.read text line).2
  | .eliminate types id => (s.eliminate types.erases id).2
  | .convert types text line =>
      (Conversion.line types.erases { store := s } text line).2.store

/-- The store after a session. -/
def serveAll (s : Store) (requests : List Request) : Store := requests.foldl serve s

/-- Throughout the session, operands exist when they are named. -/
def GroundedAll (s : Store) : List Request → Prop
  | [] => True
  | r :: requests => r.Grounded s ∧ (s.serve r).GroundedAll requests

theorem serveAll_append (s : Store) (requests later : List Request) :
    s.serveAll (requests ++ later) = (s.serveAll requests).serveAll later :=
  List.foldl_append

theorem groundedAll_append {requests later : List Request} :
    ∀ {s : Store}, s.GroundedAll (requests ++ later)
      ↔ s.GroundedAll requests ∧ (s.serveAll requests).GroundedAll later := by
  induction requests with
  | nil => intro s; exact (and_iff_right trivial).symm
  | cons r requests ih =>
      intro s
      show r.Grounded s ∧ (s.serve r).GroundedAll (requests ++ later) ↔ _
      rw [ih, ← and_assoc]
      rfl

/-! ## §2. What one request keeps. -/

theorem grows_serve (s : Store) (r : Request) : Grows s (s.serve r) := by
  cases r with
  | bot => exact grows_intern s _
  | var name =>
      by_cases hname : name ≠ []
      · simp only [serve, var, dif_pos hname]
        exact grows_intern s _
      · simp only [serve, var, dif_neg hname]
        exact Grows.refl s
  | neg operand => exact grows_intern s _
  | conj left right => exact grows_intern s _
  | disj left right => exact grows_intern s _
  | read text line => exact grows_read s text line
  | eliminate types id => exact grows_eliminate s types.erases id
  | convert types text line => exact Conversion.grows_line types.erases { store := s } text line

theorem grows_serveAll (requests : List Request) (s : Store) : Grows s (s.serveAll requests) :=
  grows_foldl grows_serve requests s

/-- An id that does not exist is refused, and nothing is stored. -/
theorem eliminate_of_unknown {s : Store} {erased : Name → Bool} {id : NodeId}
    (h : s.node? id = none) : s.eliminate erased id = (.error .unknownId, s) := by
  unfold eliminate
  rw [eliminateWithin, h]

theorem WellFormed.serve {s : Store} (hs : s.WellFormed) {r : Request}
    (hr : r.Grounded s) (hsize : (s.serve r).size ≤ UInt32.size) : (s.serve r).WellFormed := by
  cases r with
  | bot => exact (hs.intern_top .bot hsize).1
  | var name =>
      by_cases hname : name ≠ []
      · simp only [Store.serve, Store.var, dif_pos hname] at hsize ⊢
        exact (hs.intern_top (.var ⟨name, hname⟩) hsize).1
      · simp only [Store.serve, Store.var, dif_neg hname]
        exact hs
  | neg operand =>
      refine hs.intern _ hsize ?_
      intro child hchild
      rw [List.mem_singleton.1 hchild]
      exact hr
  | conj left right | disj left right =>
      refine hs.intern _ hsize ?_
      intro child hchild
      rcases List.mem_pair.1 hchild with rfl | rfl
      · exact hr.1
      · exact hr.2
  | read text line => exact hs.read text line hsize
  | eliminate types id =>
      show (s.eliminate types.erases id).2.WellFormed
      cases hn : s.node? id with
      | none =>
          rw [eliminate_of_unknown hn]
          exact hs
      | some n =>
          obtain ⟨f, hf⟩ := hs.exists_denotes (node?_eq_some_lt hn)
          obtain ⟨_, -, hwf, -⟩ := hs.eliminate hf hsize
          exact hwf
  | convert types text line =>
      simp only [Store.serve, Conversion.store_line] at hsize ⊢
      exact (judge_spec hs hsize).2.1

/-! ## §3. What a session keeps. -/

theorem consistent_serveAll (requests : List Request)
    (hsize : (empty.serveAll requests).size ≤ UInt32.size) :
    (empty.serveAll requests).Consistent :=
  (grows_serveAll requests empty).consistent Consistent.empty hsize

/-- Every store that is reached with operands that exist is well-formed. -/
theorem WellFormed.serveAll (requests : List Request) :
    ∀ {s : Store}, s.WellFormed → s.GroundedAll requests →
      (s.serveAll requests).size ≤ UInt32.size → (s.serveAll requests).WellFormed := by
  induction requests with
  | nil => intro s hs _ _; exact hs
  | cons r requests ih =>
      intro s hs hgrounded hsize
      -- there are ids for all nodes at the end, so there are for those after one request
      have hlater := (grows_serveAll requests (s.serve r)).size_le
      have hserve := hs.serve hgrounded.1 (Nat.le_trans hlater hsize)
      exact ih hserve hgrounded.2 hsize

/-- **The invariant of a store.**  After any session, as long as there are
ids for all nodes: the nodes differ, the index leads from each node to its
own position and knows no others, the constant `bot` is the first node and
no other one, the variables are counted and have names; and if the operands
named in the requests existed at the time, each node stands behind its
operands. -/
theorem session_invariant (requests : List Request)
    (hsize : (empty.serveAll requests).size < UInt32.size - 1) :
    (empty.serveAll requests).nodes.toList.Nodup
      ∧ (∀ (n : Node) (id : NodeId), (empty.serveAll requests).index[n]? = some id
          ↔ (empty.serveAll requests).nodes[id.toNat]? = some n)
      ∧ (∀ n ∈ (empty.serveAll requests).nodes.toList,
          ∃ id, (empty.serveAll requests).index[n]? = some id)
      ∧ botId = 0
      ∧ (∀ i : Nat, (empty.serveAll requests).nodes[i]? = some .bot ↔ i = botId.toNat)
      ∧ (empty.serveAll requests).variableCount
          = (empty.serveAll requests).nodes.toList.countP Node.isVar
      ∧ (∀ name : Name, .var name ∈ (empty.serveAll requests).nodes.toList → name.val ≠ [])
      ∧ (empty.GroundedAll requests →
          ∀ (id : NodeId) (n : Node), (empty.serveAll requests).nodes[id.toNat]? = some n →
            ∀ child ∈ n.children, child.toNat < id.toNat) := by
  have hsize' : (empty.serveAll requests).size ≤ UInt32.size := by omega
  have hs := consistent_serveAll requests hsize'
  refine ⟨hs.nodup, hs.index_iff, ?_, rfl, hs.getElem?_eq_bot_iff, hs.variableCount_eq, ?_, ?_⟩
  · intro n hn
    exact hs.exists_index hn
  · intro name _
    exact name.property
  · intro hgrounded
    exact (wellFormed_empty.serveAll requests hgrounded hsize').descends

/-- A session with a refused name, a refused text and a line of a listing. -/
theorem session_invariant_mixed :
    (empty.serveAll [.var "A", .neg 1, .var "", .read "!A || X_MODULE && (" 1, .conj 2 1,
        .convert (TypeTable.empty.declare "X" "bool") "a.c: !A || X_MODULE" 1,
        .eliminate (TypeTable.empty.declare "X" "bool") 4]).nodes.toList.Nodup
      ∧ ∀ (id : NodeId) (n : Node),
        (empty.serveAll [.var "A", .neg 1, .var "", .read "!A || X_MODULE && (" 1, .conj 2 1,
          .convert (TypeTable.empty.declare "X" "bool") "a.c: !A || X_MODULE" 1,
          .eliminate (TypeTable.empty.declare "X" "bool") 4]).nodes[id.toNat]? = some n →
        ∀ child ∈ n.children, child.toNat < id.toNat := by
  obtain ⟨hnodup, -, -, -, -, -, -, hdescends⟩ :=
    session_invariant [.var "A", .neg 1, .var "", .read "!A || X_MODULE && (" 1, .conj 2 1,
      .convert (TypeTable.empty.declare "X" "bool") "a.c: !A || X_MODULE" 1,
      .eliminate (TypeTable.empty.declare "X" "bool") 4] (by decide +kernel)
  refine ⟨hnodup, hdescends ⟨trivial, ?_, trivial, trivial, ?_, trivial, trivial, trivial⟩⟩
  · show (1 : NodeId).toNat < _
    decide +kernel
  · show (2 : NodeId).toNat < _ ∧ (1 : NodeId).toNat < _
    decide +kernel

end Store

end PresenceTable
