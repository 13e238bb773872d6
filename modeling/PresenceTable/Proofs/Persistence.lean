/-
  PresenceTable.Proofs.Persistence
  ────────────────────────────────
  **NOTHING IS EVER LOST.**

  Whatever is done with a store, and however it ends, the nodes that were
  there stay where they are.  What an id means depends on the nodes below it
  and on nothing else, so an id that means something means the same for ever.

  An operation can end with a fault, for instance at an operand that does not
  exist.  In a store without cycles it ends in any case, so that there is a
  store after it.

  Main results:
    * `nodes_prefix_operate` — the nodes after one operation;
    * `fault?_ne_endless` — every operation comes to an end;
    * `operations_append` — what an id means, for ever.
-/
import PresenceTable.Proofs.Session
import PresenceTable.Proofs.Store.Termination

namespace PresenceTable

/-! ## §1. Operations. -/

/-- What can be done with a store. -/
inductive Operation where
  /-- A request, which may store something. -/
  | request (r : Request)
  /-- Leaving a constant out of a disjunction. -/
  | collapse (id : NodeId)
  /-- Writing out a condition. -/
  | print (id : NodeId)

/-- The fault with which something ended, if it did. -/
def Fault.of? {α : Type} : Except Fault α → Option Fault
  | .ok _ => none
  | .error fault => some fault

namespace Store

/-- The store after an operation, whether it succeeded or not. -/
def operate (s : Store) : Operation → Store
  | .request r => s.serve r
  | .collapse _ | .print _ => s

/-- The store after several operations. -/
def operateAll (s : Store) (operations : List Operation) : Store := operations.foldl operate s

/-- The fault with which an operation ends, if it does.  A text that spells
no condition is refused without a fault. -/
def fault? (s : Store) : Operation → Option Fault
  | .request (.var name) => Fault.of? (s.var name)
  | .request (.eliminate types id) => Fault.of? (s.eliminate types.erases id).1
  | .request (.convert types text line) =>
      Fault.of? (Conversion.line types.erases { store := s } text line).1
  | .request .bot | .request (.neg _) | .request (.conj _ _) | .request (.disj _ _)
  | .request (.read _ _) => none
  | .collapse id => Fault.of? (s.collapse id)
  | .print id => Fault.of? (s.print id)

/-! ## §2. One operation. -/

theorem grows_operate (s : Store) (operation : Operation) : Grows s (s.operate operation) := by
  cases operation with
  | request r => exact grows_serve s r
  | collapse | print => exact Grows.refl s

theorem grows_operateAll (operations : List Operation) (s : Store) :
    Grows s (s.operateAll operations) :=
  grows_foldl grows_operate operations s

/-- **The nodes after an operation** begin with the nodes before it. -/
theorem nodes_prefix_operate (s : Store) (operation : Operation) :
    s.nodes.toList <+: (s.operate operation).nodes.toList :=
  Grows.nodes_prefix (grows_operate s operation)

theorem fault_of?_ne_some {α : Type} {result : Except Fault α} {fault : Fault} :
    Fault.of? result ≠ some fault ↔ result ≠ .error fault := by
  cases result <;> simp [Fault.of?]

/-- The verdict on a line is reached: reading makes no cycles, and in what was
read then elimination ends. -/
theorem Acyclic.judge_ne_endless {s : Store} (hs : s.Acyclic) (hempty : Grows empty s)
    (erased : Name → Bool) (text : Bytes) (line : UInt32) :
    (judge erased s text line).1.fault? ≠ some .endless := by
  unfold judge
  split
  · simp [Verdict.fault?]
  · simp [Verdict.fault?]
  · next path condition _ =>
    split
    · simp [Verdict.fault?]
    · have hread := hs.read hempty condition line
      have hempty' := hempty.trans (grows_read s condition line)
      unfold judgeCondition
      rcases hr : s.read condition line with ⟨_ | id, t⟩
      · simp [Verdict.fault?]
      · rw [hr] at hread hempty'
        have hends := (hread.eliminate hempty' erased id).ends
        dsimp only
        rcases he : t.eliminate erased id with ⟨_ | _, u⟩
        · rw [he] at hends
          simpa [Verdict.fault?] using hends
        · simp [Verdict.fault?]

/-- **Every operation comes to an end** in a store without cycles. -/
theorem Acyclic.fault?_ne_endless {s : Store} (hs : s.Acyclic) (hempty : Grows empty s)
    (operation : Operation) : s.fault? operation ≠ some .endless := by
  cases operation with
  | collapse id => exact fault_of?_ne_some.2 (collapse_ne_endless s id)
  | print id =>
      refine fault_of?_ne_some.2 fun h => ?_
      unfold print at h
      cases hformula : s.formula id with
      | ok f => rw [hformula] at h; cases h
      | error fault =>
          rw [hformula] at h
          cases h
          obtain ⟨hfault, -⟩ := hs.formula_eq_error hformula
          cases hfault
  | request r =>
      cases r with
      | bot | neg | conj | disj | read => simp [fault?]
      | var name =>
          refine fault_of?_ne_some.2 ?_
          unfold var
          split <;> simp
      | eliminate types id =>
          exact fault_of?_ne_some.2 (hs.eliminate hempty types.erases id).ends
      | convert types text line =>
          refine fault_of?_ne_some.2 ?_
          have hverdict := hs.judge_ne_endless hempty types.erases text line
          simp only [Conversion.line]
          rcases hfault : (judge types.erases s text line).1.fault? with _ | fault
          · simp
          · rw [hfault] at hverdict
            simpa using hverdict

/-! ## §3. Any number of operations. -/

/-- **Nothing is ever lost.**  Let a store have no cycles, whatever operands do
not exist.  Each operation comes to an end, and the nodes after it begin with
the nodes before it, whether it succeeded or not.  An id below which no id is
missing has a node, a tree and a written form, and keeps them, whatever is done
with the store later. -/
theorem operations_append {s : Store} (hempty : Grows empty s) (hs : s.Acyclic) :
    (∀ operation, s.fault? operation ≠ some .endless
        ∧ s.nodes.toList <+: (s.operate operation).nodes.toList)
      ∧ ∀ id, s.Complete id → ∃ n f text, s.node? id = some n ∧ s.formula id = .ok f
          ∧ s.print id = .ok text
          ∧ ∀ later, (s.operateAll later).node? id = some n
              ∧ (s.operateAll later).formula id = .ok f
              ∧ (s.operateAll later).print id = .ok text := by
  refine ⟨fun operation => ⟨hs.fault?_ne_endless hempty operation, nodes_prefix_operate s operation⟩,
    fun id hid => ?_⟩
  obtain ⟨n, hn⟩ := exists_node? (hid id .refl)
  obtain ⟨f, hf⟩ := hs.exists_formula hid
  refine ⟨n, f, f.print, hn, hf, print_of_formula hf, fun later => ?_⟩
  have hgrows := grows_operateAll later s
  have hf' := formula_of_grows hgrows hf
  exact ⟨hgrows.node? hn, hf', print_of_formula hf'⟩

/-- An operand that does not exist until its node is eliminated: then the id is
given to a new node, below the node that is eliminated. -/
theorem operations_append_missing :
    ∃ s : Store, s = empty.serveAll [.var "A", .var "B", .neg 1, .conj 3 2, .neg 7, .disj 4 5]
      ∧ s.print 6 = .error .unknownId
      ∧ (s.operate (.request (.eliminate .empty 6))).print 6 = .ok "((!A && B) || !(A && B))"
      ∧ s.nodes.toList <+: (s.operate (.request (.eliminate .empty 6))).nodes.toList
      ∧ ∃ text, s.print 4 = .ok text
        ∧ (s.operateAll [.request (.eliminate .empty 6), .request (.neg 9), .collapse 8]).print 4
          = .ok text := by
  refine ⟨_, rfl, by decide +kernel, by decide +kernel, ?_⟩
  have hnodes : (empty.serveAll [.var "A", .var "B", .neg 1, .conj 3 2, .neg 7, .disj 4 5]).nodes
      = #[.bot, .var ⟨"A", by decide⟩, .var ⟨"B", by decide⟩, .neg 1, .conj 3 2, .neg 7,
        .disj 4 5] := by decide +kernel
  generalize hs : empty.serveAll [.var "A", .var "B", .neg 1, .conj 3 2, .neg 7, .disj 4 5] = s
    at hnodes
  have hempty : Grows empty s := hs ▸ grows_serveAll _ empty
  have hacyclic : s.Acyclic := by
    have hdescends : (s.nodes.toList.zipIdx.all fun p =>
        p.1.children.all fun child => child.toNat < p.2 || s.size ≤ child.toNat) = true := by
      rw [size, hnodes]
      decide +kernel
    simp only [List.all_eq_true, Bool.or_eq_true, decide_eq_true_eq] at hdescends
    exact acyclic_of_descends fun id n hn =>
      hdescends (n, id.toNat) (List.mk_mem_zipIdx_iff_getElem?.2 (Array.getElem?_toList.trans hn))
  have hcomplete : s.Complete 4 := by
    have hdenotes : s.Denotes 4 (.conj (.neg (.var ⟨"A", by decide⟩)) (.var ⟨"B", by decide⟩)) := by
      refine ⟨3, 2, ?_, ⟨1, ?_, ?_⟩, ?_⟩ <;> simp [node?, Denotes, hnodes]
    exact hdenotes.complete
  obtain ⟨happend, hkept⟩ := operations_append hempty hacyclic
  obtain ⟨_, _, text, -, -, htext, hlater⟩ := hkept 4 hcomplete
  exact ⟨(happend _).2, text, htext, (hlater _).2.2⟩

end Store

end PresenceTable
