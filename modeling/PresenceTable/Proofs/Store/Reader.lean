/-
  PresenceTable.Proofs.Store.Reader
  ─────────────────────────────────
  **WHAT IS STORED WHILE A CONDITION IS READ.**

  A reader that stores operands as soon as they are finished does what the
  reader of trees does, with ids for trees.  The trees that it has finished
  are stored in the order in which they stand in the text:

      store so far  =  store at first, with all finished operands of the tree

  A tree is stored from the leaves up and from left to right, so storing the
  parts of an operand, then the next operand, and then the node above both
  comes to the same as storing the tree of that node.  That is all a step
  does, and at the end the whole tree has been stored, or what was finished
  of it.

  Main results:
    * `HoldsReading.agrees_readToken` — one token, for ids and for trees;
    * `HoldsReading.readFrom_eq` — from any place to the end;
    * `read_eq_take` — reading into a store, by the tree that is read;
    * `exists_read_snd_eq` — what is in the store then.
-/
import PresenceTable.Store.Read

namespace PresenceTable

namespace Store

/-- Store what was read as a tree, or what of it was finished. -/
def take (s : Store) : Except Refusal Formula → Except SyntaxError NodeId × Store
  | .ok f =>
    let (id, s) := s.add f
    (.ok id, s)
  | .error refusal => (.error refusal.error, s.addAll refusal.finished)

/-! ## §1. Operands. -/

theorem add_repeat_neg (s : Store) (f : Formula) (n : Nat) :
    s.add (n.repeat Formula.neg f) = (s.add f).2.negate (s.add f).1 n := by
  induction n with
  | zero => rfl
  | succ n ih =>
      show (s.add (n.repeat Formula.neg f)).2.intern (.neg (s.add (n.repeat Formula.neg f)).1) = _
      rw [ih]
      rfl

/-- Storing the operand, if there is one, gives this id and the store `t`. -/
inductive HoldsOperand (s : Store) : Option Formula → Option NodeId → Store → Prop where
  | none : HoldsOperand s none none s
  | some (f : Formula) : HoldsOperand s (some f) (some (s.add f).1) (s.add f).2

/-- Storing the operands of a level from left to right gives these ids and
the store `t`. -/
inductive HoldsLevel (s : Store) (level : Level Formula) (ids : Level NodeId) (t : Store) :
    Prop where
  | intro {between : Store} (disjunct : HoldsOperand s level.disjunct ids.disjunct between)
      (conjunct : HoldsOperand between level.conjunct ids.conjunct t)
      (negations : ids.negations = level.negations)

/-- The same for nested levels, the outermost of which is stored first. -/
inductive HoldsLevels (s : Store) : List (Level Formula) → List (Level NodeId) → Store → Prop where
  | nil : HoldsLevels s [] [] s
  | cons {level : Level Formula} {ids : Level NodeId} {outer : List (Level Formula)}
      {outerIds : List (Level NodeId)} {between t : Store} :
      HoldsLevels s outer outerIds between → HoldsLevel between level ids t →
        HoldsLevels s (level :: outer) (ids :: outerIds) t

/-- Storing all finished operands of a reading gives these ids in their
places, and the store `t`. -/
inductive HoldsReading (s : Store) : Reading Formula → Reading NodeId → Store → Prop where
  | wanting {level : Level Formula} {ids : Level NodeId} {enclosing : List (Level Formula)}
      {enclosingIds : List (Level NodeId)} {t : Store} :
      HoldsLevels s (level :: enclosing) (ids :: enclosingIds) t →
        HoldsReading s (.wanting level enclosing) (.wanting ids enclosingIds) t
  | having {disjunct : Option Formula} {disjunctId : Option NodeId} {f : Formula}
      {enclosing : List (Level Formula)} {enclosingIds : List (Level NodeId)}
      {between t : Store} :
      HoldsLevels s enclosing enclosingIds between →
        HoldsOperand between disjunct disjunctId t →
          HoldsReading s (.having disjunct f enclosing)
            (.having disjunctId (t.add f).1 enclosingIds) (t.add f).2

variable {s t : Store}

theorem HoldsOperand.addAll_eq {operand : Option Formula} {id : Option NodeId}
    (h : s.HoldsOperand operand id t) : s.addAll operand.toList = t := by
  cases h <;> rfl

theorem HoldsLevel.addAll_eq {level : Level Formula} {ids : Level NodeId}
    (h : s.HoldsLevel level ids t) : s.addAll level.finished = t := by
  obtain ⟨hdisjunct, hconjunct, -⟩ := h
  unfold Level.finished
  rw [addAll_append, hdisjunct.addAll_eq, hconjunct.addAll_eq]

theorem HoldsLevels.addAll_eq {levels : List (Level Formula)} {ids : List (Level NodeId)}
    (h : s.HoldsLevels levels ids t) : s.addAll (finishedOperands levels) = t := by
  induction h with
  | nil => rfl
  | cons _ hlevel ih => rw [finishedOperands_cons, addAll_append, ih, hlevel.addAll_eq]

/-- **What completes an operand** stores the tree that it completes. -/
theorem HoldsOperand.add_complete {level : Level Formula} {ids : Level NodeId}
    (h : s.HoldsOperand level.conjunct ids.conjunct t)
    (hnegations : ids.negations = level.negations) (f : Formula) :
    s.add (level.complete f) = (t.add f).2.complete ids (t.add f).1 := by
  unfold Level.complete complete
  rw [hnegations, ← add_repeat_neg]
  generalize level.conjunct = conjunct at h
  generalize ids.conjunct = id at h
  cases h <;> rfl

/-- **What joins two operands** stores their disjunction. -/
theorem HoldsOperand.add_join {disjunct : Option Formula} {id : Option NodeId}
    (h : s.HoldsOperand disjunct id t) (f : Formula) :
    s.add (Reading.join disjunct f) = (t.add f).2.join id (t.add f).1 := by
  cases h <;> rfl

/-! ## §2. One token. -/

/-- An operand that is finished at a level is stored with what waits for it. -/
theorem HoldsLevels.supply {level : Level Formula} {ids : Level NodeId}
    {enclosing : List (Level Formula)} {enclosingIds : List (Level NodeId)}
    (h : s.HoldsLevels (level :: enclosing) (ids :: enclosingIds) t) (f : Formula) :
    s.HoldsReading (Reading.supply level f enclosing)
      ((t.add f).2.supply ids (t.add f).1 enclosingIds).1
      ((t.add f).2.supply ids (t.add f).1 enclosingIds).2 := by
  obtain _ | ⟨henclosing, hdisjunct, hconjunct, hnegations⟩ := h
  unfold Store.supply
  rw [← hconjunct.add_complete hnegations f]
  exact .having henclosing hdisjunct

/-- The two readers come to the same with a token: what the one has in ids
the other has in trees, or both refuse it, and what was finished is stored. -/
def Agrees (s : Store) : Except Refusal (Reading Formula) →
    Except SyntaxError (Reading NodeId) × Store → Prop
  | .ok reading, (.ok ids, t) => s.HoldsReading reading ids t
  | .error refusal, (.error error, t) =>
    refusal.error = error ∧ s.addAll refusal.finished = t
  | .ok _, (.error _, _) | .error _, (.ok _, _) => False

/-- A disjunction is stored behind what is finished outside of it. -/
theorem HoldsLevels.addAll_join {enclosing : List (Level Formula)}
    {enclosingIds : List (Level NodeId)} {between : Store}
    (henclosing : s.HoldsLevels enclosing enclosingIds between) {disjunct : Option Formula}
    {id : Option NodeId} (hdisjunct : between.HoldsOperand disjunct id t) (f : Formula) :
    s.addAll (finishedOperands enclosing ++ [Reading.join disjunct f])
      = ((t.add f).2.join id (t.add f).1).2 := by
  rw [addAll_append, henclosing.addAll_eq, ← hdisjunct.add_join f]
  rfl

/-- **One token more**, for ids and for trees. -/
theorem HoldsReading.agrees_readToken {reading : Reading Formula} {ids : Reading NodeId}
    (h : s.HoldsReading reading ids t) (token : Token) :
    s.Agrees (reading.step token) (t.readToken ids token) := by
  obtain ⟨symbol, position⟩ := token
  cases h with
  | wanting h =>
      cases symbol with
      | name n => exact h.supply (.var n)
      | bang =>
          obtain _ | ⟨henclosing, hdisjunct, hconjunct, hnegations⟩ := h
          exact .wanting (.cons henclosing
            (.intro hdisjunct hconjunct (congrArg (· + 1) hnegations)))
      | opening => exact .wanting (.cons h (.intro .none .none rfl))
      | and | or | closing => exact ⟨rfl, h.addAll_eq⟩
  | @having disjunct disjunctId f enclosing enclosingIds between t henclosing hdisjunct =>
      have hjoin := hdisjunct.add_join f
      have hfinished := henclosing.addAll_join hdisjunct f
      cases symbol with
      | and => exact .wanting (.cons henclosing (.intro hdisjunct (.some f) rfl))
      | or =>
          unfold readToken
          dsimp only
          rw [← hjoin]
          exact .wanting (.cons henclosing (.intro (.some _) .none rfl))
      | closing =>
          cases henclosing with
          | nil => exact ⟨rfl, hfinished⟩
          | cons houter hlevel =>
              unfold readToken
              dsimp only
              rw [← hjoin]
              exact (houter.cons hlevel).supply _
      | name n | bang | opening => cases henclosing <;> exact ⟨rfl, hfinished⟩

/-! ## §3. The end of the text, and all of it. -/

theorem HoldsReading.readStop_eq {reading : Reading Formula} {ids : Reading NodeId}
    (h : s.HoldsReading reading ids t) (stop : Stop) :
    t.readStop ids stop = s.take (reading.finish stop) := by
  cases h with
  | wanting h =>
      have hfinished := h.addAll_eq
      cases stop with
      | endOfText position => exact congrArg (Prod.mk _) hfinished.symm
      | failure error => exact congrArg (Prod.mk _) hfinished.symm
  | @having disjunct disjunctId f enclosing enclosingIds between t henclosing hdisjunct =>
      cases stop with
      | failure error =>
          have hfinished : s.addAll (finishedOperands enclosing ++ disjunct.toList ++ [f])
              = (t.add f).2 := by
            rw [addAll_append, addAll_append, henclosing.addAll_eq, hdisjunct.addAll_eq]
            rfl
          exact congrArg (Prod.mk _) hfinished.symm
      | endOfText position =>
          have hfinished := henclosing.addAll_join hdisjunct f
          cases henclosing with
          | nil =>
              unfold readStop Reading.finish take
              dsimp only
              rw [hdisjunct.add_join f]
          | cons houter hlevel => exact congrArg (Prod.mk _) hfinished.symm

/-- **Reading to the end** stores the tree that is read, or what of it was
finished. -/
theorem HoldsReading.readFrom_eq (c : Cursor) :
    ∀ {reading : Reading Formula} {ids : Reading NodeId} {t : Store},
      s.HoldsReading reading ids t → t.readFrom ids c = s.take (reading.run c.tokens) := by
  -- each token leaves fewer bytes, so the induction is on how many are left
  induction hk : c.rest.length using Nat.strongRecOn generalizing c with
  | ind k ih =>
      subst hk
      intro reading ids t h
      rcases hnext : c.next with ⟨stop | token, after⟩
      · rw [readFrom_of_next_error hnext, Cursor.tokens_of_next_error hnext]
        exact h.readStop_eq stop
      · have hlt := Cursor.length_rest_lt_of_next_ok hnext
        have hagrees := h.agrees_readToken token
        rw [readFrom_of_next_ok hnext, Cursor.tokens_of_next_ok hnext]
        unfold Reading.run
        rw [List.foldlM_cons]
        rcases hread : t.readToken ids token with ⟨error | ids', t'⟩
        · rw [hread] at hagrees
          cases hstep : reading.step token with
          | ok reading' => rw [hstep] at hagrees; exact hagrees.elim
          | error refusal =>
              rw [hstep] at hagrees
              obtain ⟨rfl, rfl⟩ := hagrees
              rfl
        · rw [hread] at hagrees
          cases hstep : reading.step token with
          | error refusal => rw [hstep] at hagrees; exact hagrees.elim
          | ok reading' =>
              rw [hstep] at hagrees
              exact ih _ hlt after rfl hagrees

/-- **Reading into a store** stores the tree that the text spells, or what of
it was finished. -/
theorem read_eq_take (s : Store) (text : Bytes) (line : UInt32) :
    s.read text line = s.take (Formula.ofText text line) := by
  have hstart : s.HoldsReading .start .start s :=
    .wanting (.cons .nil (.intro .none .none rfl))
  exact hstart.readFrom_eq (Cursor.start text line)

/-- **What a text leaves behind**, read or refused, are trees. -/
theorem exists_read_snd_eq (s : Store) (text : Bytes) (line : UInt32) :
    ∃ fs, (s.read text line).2 = s.addAll fs := by
  rw [read_eq_take]
  cases Formula.ofText text line with
  | ok f => exact ⟨[f], rfl⟩
  | error refusal => exact ⟨refusal.finished, rfl⟩

end Store

end PresenceTable
