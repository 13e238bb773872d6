/-
  PresenceTable.Proofs.Composition
  ────────────────────────────────
  **ONE ELIMINATION AFTER ANOTHER.**

  Eliminations of trees compose, and the answers of a store follow the trees:
  an id, and the answer that was given for it at any moment of a session, are
  related at the end of the session like their trees (`EliminatesTo`).  So it
  does not matter when the answers were given or what was asked for between
  them.  The ids that are answered for one and the same tree are the same.

  Main results:
    * `EliminatesTo.trans`, `EliminatesTo.unique` — the algebra of answers;
    * `Answered.eliminatesTo` — answers that a session gave;
    * `answers_compose` — two tables, one after the other, and their union.
-/
import PresenceTable.Proofs.Session

namespace PresenceTable

namespace Store

/-! ## §1. Answers, by the trees. -/

/-- The second id is that of the tree of the first one after elimination. -/
def EliminatesTo (s : Store) (erased : Name → Bool) (id answer : NodeId) : Prop :=
  ∃ f, s.Denotes id f ∧ s.Denotes answer (f.eliminate erased)

variable {s t : Store} {erased erased' : Name → Bool} {i j k : NodeId}

theorem EliminatesTo.of_grows (h : Grows s t) (hs : s.EliminatesTo erased i j) :
    t.EliminatesTo erased i j := by
  obtain ⟨f, hi, hj⟩ := hs
  exact ⟨f, hi.of_grows h, hj.of_grows h⟩

/-- An id has one answer only. -/
theorem EliminatesTo.unique (hs : s.Consistent) (hj : s.EliminatesTo erased i j)
    (hk : s.EliminatesTo erased i k) : j = k := by
  obtain ⟨f, hi, hj⟩ := hj
  obtain ⟨g, hi', hk⟩ := hk
  rw [← hi.unique hi'] at hk
  exact hj.id_unique hs hk

/-- **The answer for an answer** is an answer for the names that either
elimination erases. -/
theorem EliminatesTo.trans (hij : s.EliminatesTo erased i j)
    (hjk : s.EliminatesTo erased' j k) :
    s.EliminatesTo (fun n => erased n || erased' n) i k := by
  obtain ⟨f, hi, hj⟩ := hij
  obtain ⟨g, hj', hk⟩ := hjk
  rw [← hj.unique hj', Formula.eliminate_eliminate] at hk
  exact ⟨f, hi, hk⟩

theorem WellFormed.eliminatesTo (hs : s.WellFormed)
    (hsize : (s.eliminate erased i).2.size ≤ UInt32.size)
    (h : (s.eliminate erased i).1 = .ok j) : (s.eliminate erased i).2.EliminatesTo erased i j := by
  cases hn : s.node? i with
  | none =>
      rw [eliminate_of_unknown hn] at h
      cases h
  | some n =>
      obtain ⟨f, hf⟩ := hs.exists_denotes (node?_eq_some_lt hn)
      obtain ⟨answer, hok, -, hanswer⟩ := hs.eliminate hf hsize
      cases hok.symm.trans h
      exact ⟨f, hf.of_grows (grows_eliminate s erased i), hanswer⟩

/-! ## §2. Answers throughout a session. -/

/-- At some moment of the session the elimination of the id was asked for,
and this was the answer. -/
def Answered (s : Store) (requests : List Request) (types : TypeTable) (id answer : NodeId) :
    Prop :=
  ∃ before after, requests = before ++ .eliminate types id :: after
    ∧ ((s.serveAll before).eliminate types.erases id).1 = .ok answer

variable {requests : List Request} {types : TypeTable}

/-- The store is well-formed when a request is made, and there is room for
what it stores. -/
theorem WellFormed.at_request (hs : s.WellFormed) {before after : List Request} {r : Request}
    (hgrounded : s.GroundedAll (before ++ r :: after))
    (hsize : (s.serveAll (before ++ r :: after)).size ≤ UInt32.size) :
    (s.serveAll before).WellFormed ∧ ((s.serveAll before).serve r).size ≤ UInt32.size := by
  rw [serveAll_append] at hsize
  have hlater := grows_serveAll after ((s.serveAll before).serve r)
  have hserved := Nat.le_trans hlater.size_le hsize
  have hbefore := Nat.le_trans (grows_serve (s.serveAll before) r).size_le hserved
  exact ⟨hs.serveAll before (groundedAll_append.1 hgrounded).1 hbefore, hserved⟩

/-- **What was answered during a session** holds at its end. -/
theorem Answered.eliminatesTo (hs : s.WellFormed) (hgrounded : s.GroundedAll requests)
    (hsize : (s.serveAll requests).size ≤ UInt32.size) (h : s.Answered requests types i j) :
    (s.serveAll requests).EliminatesTo types.erases i j := by
  obtain ⟨before, after, rfl, hanswer⟩ := h
  obtain ⟨hwf, hroom⟩ := hs.at_request hgrounded hsize
  have hlater := grows_serveAll after ((s.serveAll before).serve (.eliminate types i))
  rw [serveAll_append]
  exact (hwf.eliminatesTo hroom hanswer).of_grows hlater

/-- **Eliminations compose and commute.**  Throughout a session in which
operands exist when they are named, every elimination of an id that exists
has an answer, which exists as well.  In whatever order the answers were
given: eliminating with one table and then with another answers like a table
that erases the bases of both; the two tables may be exchanged; and a second
elimination with the same table changes nothing. -/
theorem answers_compose {s : Store} (hs : s.WellFormed) (requests : List Request)
    (hgrounded : s.GroundedAll requests)
    (hsize : (s.serveAll requests).size < UInt32.size - 1) :
    (∀ (before after : List Request) (types : TypeTable) (id : NodeId),
        requests = before ++ .eliminate types id :: after →
        id.toNat < (s.serveAll before).size →
        ∃ answer, ((s.serveAll before).eliminate types.erases id).1 = .ok answer
          ∧ answer.toNat < ((s.serveAll before).eliminate types.erases id).2.size)
    ∧ (∀ (types₁ types₂ types₁₂ : TypeTable) (i j k l : NodeId),
        types₁₂.erasedBases = types₁.erasedBases ∪ types₂.erasedBases →
        s.Answered requests types₁ i j → s.Answered requests types₂ j k →
        s.Answered requests types₁₂ i l → k = l)
    ∧ (∀ (types₁ types₂ : TypeTable) (i j k j' k' : NodeId),
        s.Answered requests types₁ i j → s.Answered requests types₂ j k →
        s.Answered requests types₂ i j' → s.Answered requests types₁ j' k' → k = k')
    ∧ ∀ (types : TypeTable) (i j k : NodeId),
        s.Answered requests types i j → s.Answered requests types j k → k = j := by
  have hsize' : (s.serveAll requests).size ≤ UInt32.size := by omega
  -- all answers are compared in the store at the end of the session
  have hend := (hs.serveAll requests hgrounded hsize').toConsistent
  have hanswer : ∀ {types i j}, s.Answered requests types i j →
      (s.serveAll requests).EliminatesTo types.erases i j :=
    fun h => h.eliminatesTo hs hgrounded hsize'
  refine ⟨?_, ?_, ?_, ?_⟩
  · rintro before after types id rfl hid
    obtain ⟨hwf, hroom⟩ := hs.at_request hgrounded hsize'
    obtain ⟨f, hf⟩ := hwf.exists_denotes hid
    obtain ⟨answer, hok, -, hden⟩ := hwf.eliminate hf hroom
    exact ⟨answer, hok, hden.lt⟩
  · intro types₁ types₂ types₁₂ i j k l hunion hij hjk hil
    have hik := (hanswer hij).trans (hanswer hjk)
    have hboth : (fun n => types₁.erases n || types₂.erases n) = types₁₂.erases :=
      funext fun n => (TypeTable.erases_of_union hunion n).symm
    rw [hboth] at hik
    exact hik.unique hend (hanswer hil)
  · intro types₁ types₂ i j k j' k' hij hjk hij' hjk'
    have hik := (hanswer hij).trans (hanswer hjk)
    have hik' := (hanswer hij').trans (hanswer hjk')
    have hswap : (fun n => types₂.erases n || types₁.erases n)
        = fun n => types₁.erases n || types₂.erases n :=
      funext fun n => Bool.or_comm _ _
    rw [hswap] at hik'
    exact hik.unique hend hik'
  · intro types i j k hij hjk
    have hik := (hanswer hij).trans (hanswer hjk)
    have hself : (fun n => types.erases n || types.erases n) = types.erases :=
      funext fun n => Bool.or_self _
    rw [hself] at hik
    exact hik.unique hend (hanswer hij)

/-- Two tables in both orders, after a table that erases the bases of both.
The first of them makes one disjunct `bot`, and the second the one beside it. -/
theorem answers_compose_both_orders :
    ∃ (s : Store) (x y xy : TypeTable) (requests : List Request) (i j k l : NodeId),
      s = (empty.read "(X_MODULE || !Y_MODULE) && (Y_MODULE || A)" 1).2
        ∧ x = TypeTable.empty.declare "X" "bool"
        ∧ y = TypeTable.empty.declare "Y" "string"
        ∧ xy = (TypeTable.empty.declare "X" "int").declare "Y" "bool"
        ∧ requests = [.eliminate xy 7, .read "B" 1, .eliminate y 7, .eliminate x 13,
            .eliminate x 7, .eliminate y 15, .eliminate xy 10]
        ∧ s.Answered requests xy 7 i ∧ s.Answered requests y 15 j
        ∧ s.Answered requests x 13 k ∧ s.Answered requests xy 10 l
        ∧ j = i ∧ j = k ∧ l = 10 := by
  have hs : (empty.read "(X_MODULE || !Y_MODULE) && (Y_MODULE || A)" 1).2.WellFormed :=
    wellFormed_empty.read "(X_MODULE || !Y_MODULE) && (Y_MODULE || A)" 1 (by decide +kernel)
  have hbases : ((TypeTable.empty.declare "X" "int").declare "Y" "bool").erasedBases
      = (TypeTable.empty.declare "X" "bool").erasedBases
        ∪ (TypeTable.empty.declare "Y" "string").erasedBases := by
    have hbool : ("bool" : Bytes) ≠ TypeTable.tristate := by decide
    have hint : ("int" : Bytes) ≠ TypeTable.tristate := by decide
    have hstring : ("string" : Bytes) ≠ TypeTable.tristate := by decide
    simp only [TypeTable.erasedBases_declare _ _ hbool, TypeTable.erasedBases_declare _ _ hint,
      TypeTable.erasedBases_declare _ _ hstring, TypeTable.erasedBases_empty, Set.empty_union]
  obtain ⟨hanswers, hunion, hswap, hagain⟩ := answers_compose hs
    [.eliminate ((TypeTable.empty.declare "X" "int").declare "Y" "bool") 7, .read "B" 1,
      .eliminate (TypeTable.empty.declare "Y" "string") 7,
      .eliminate (TypeTable.empty.declare "X" "bool") 13,
      .eliminate (TypeTable.empty.declare "X" "bool") 7,
      .eliminate (TypeTable.empty.declare "Y" "string") 15,
      .eliminate ((TypeTable.empty.declare "X" "int").declare "Y" "bool") 10]
    ⟨trivial, trivial, trivial, trivial, trivial, trivial, trivial, trivial⟩ (by decide +kernel)
  -- the requests are counted by what stands before them
  obtain ⟨i, hi, -⟩ := hanswers [] _ _ _ rfl (by decide +kernel)
  obtain ⟨j, hj, -⟩ := hanswers [_, _, _, _, _] _ _ _ rfl (by decide +kernel)
  obtain ⟨k, hk, -⟩ := hanswers [_, _, _] _ _ _ rfl (by decide +kernel)
  obtain ⟨l, hl, -⟩ := hanswers [_, _, _, _, _, _] _ _ _ rfl (by decide +kernel)
  have hi' := hunion _ _ _ 7 15 j i hbases ⟨[_, _, _, _], _, rfl, by decide +kernel⟩
    ⟨_, _, rfl, hj⟩ ⟨_, _, rfl, hi⟩
  have hk' := hswap _ _ 7 15 j 13 k ⟨[_, _, _, _], _, rfl, by decide +kernel⟩ ⟨_, _, rfl, hj⟩
    ⟨[_, _], _, rfl, by decide +kernel⟩ ⟨_, _, rfl, hk⟩
  have hl' := hagain _ 7 10 l ⟨[], _, rfl, by decide +kernel⟩ ⟨_, _, rfl, hl⟩
  exact ⟨_, _, _, _, _, i, j, k, l, rfl, rfl, rfl, rfl, rfl, ⟨_, _, rfl, hi⟩, ⟨_, _, rfl, hj⟩,
    ⟨_, _, rfl, hk⟩, ⟨_, _, rfl, hl⟩, hi', hk', hl'⟩

end Store

end PresenceTable
