/-
  PresenceTable.Proofs.Canonicity
  ───────────────────────────────
  **AN ID FOR EVERY TREE.**

  Nodes are shared one level at a time, and by induction so are trees: in
  a store a tree has one id at most.  An id keeps its tree whatever is
  asked for later, so ids that were answered at different moments of a
  session can be compared like the trees they stand for.

  Main results:
    * `Consistent.read_id_eq_iff` — texts that are read at two moments;
    * `id_eq_iff_formula_eq` — comparing ids compares the computed trees,
      recognises the constant `bot`, and compares what was read.
-/
import PresenceTable.Proofs.Session

namespace PresenceTable

namespace Store

/-- What a text is read as at one moment can be compared with what another
text is read as after any session. -/
theorem Consistent.read_id_eq_iff {s t : Store} (hs : s.Consistent) (requests : List Request)
    {text text' : Bytes} {line line' : UInt32} {i j : NodeId}
    (hi : (s.read text line).1 = .ok i)
    (hj : ((s.read text line).2.serveAll requests).read text' line' = (.ok j, t))
    (hsize : t.size ≤ UInt32.size) :
    ∃ f g : Formula, f.SpelledBy text ∧ g.SpelledBy text' ∧ (i = j ↔ f = g) := by
  -- the store grows from the first reading to the second, and after it
  have hsession := grows_serveAll requests (s.read text line).2
  have hlast := grows_read ((s.read text line).2.serveAll requests) text' line'
  rw [hj] at hlast
  have hmiddle := Nat.le_trans hlast.size_le hsize
  have hfirst := Nat.le_trans hsession.size_le hmiddle
  have hread := (grows_read s text line).consistent hs hfirst
  have hserved := hsession.consistent hread hmiddle
  obtain ⟨f, hf, hden⟩ := hs.of_read_ok (Prod.ext hi rfl) hfirst
  obtain ⟨g, hg, hden'⟩ := hserved.of_read_ok hj hsize
  have hkept : t.Denotes i f := (hden.of_grows hsession).of_grows hlast
  exact ⟨f, g, hf, hg, hkept.id_eq_iff (hlast.consistent hserved hsize) hden'⟩

/-- **Ids are equal exactly when their trees are.**  So the constant `bot`
is recognised by its id; and two texts that are read at any two moments,
whatever is asked for in between, are answered with the same id exactly
when they spell the same condition. -/
theorem id_eq_iff_formula_eq {s : Store} (hs : s.WellFormed) :
    (∀ i j : NodeId, i.toNat < s.size → j.toNat < s.size →
        ∃ f g, s.formula i = .ok f ∧ s.formula j = .ok g ∧ (i = j ↔ f = g))
      ∧ (∀ i : NodeId, i.toNat < s.size → ∃ f, s.formula i = .ok f ∧ (i = botId ↔ f = .bot))
      ∧ ∀ (requests : List Request) (text text' : Bytes) (line line' : UInt32)
          (i j : NodeId) (t : Store),
          (s.read text line).1 = .ok i →
          ((s.read text line).2.serveAll requests).read text' line' = (.ok j, t) →
          t.size < UInt32.size - 1 →
            ∃ f g : Formula, f.SpelledBy text ∧ g.SpelledBy text' ∧ (i = j ↔ f = g) := by
  refine ⟨?_, ?_, ?_⟩
  · intro i j hi hj
    obtain ⟨f, hf⟩ := hs.exists_denotes hi
    obtain ⟨g, hg⟩ := hs.exists_denotes hj
    exact ⟨f, g, hs.formula_eq hf, hs.formula_eq hg, hf.id_eq_iff hs.toConsistent hg⟩
  · intro i hi
    obtain ⟨f, hf⟩ := hs.exists_denotes hi
    exact ⟨f, hs.formula_eq hf, hf.eq_botId_iff hs.toConsistent⟩
  · intro requests text text' line line' i j t hi hj hsize
    exact hs.toConsistent.read_id_eq_iff requests hi hj (by omega)

/-- One condition in two spellings, with a refused text, a negation of
nothing and an elimination in between; and another condition beside it. -/
theorem id_eq_iff_formula_eq_later :
    (∃ f g, (empty.read "A && B" 1).2.formula 3 = .ok f
        ∧ (empty.read "A && B" 1).2.formula 1 = .ok g ∧ ((3 : NodeId) = 1 ↔ f = g))
      ∧ ((empty.read "A && B" 1).2.read "B || !A" 1).1 = .ok 5
      ∧ ((((empty.read "A && B" 1).2.read "B || !A" 1).2.serveAll
          [.read "A && (C" 1, .neg 77, .eliminate .empty 5]).read "(B)||! A" 3).1 = .ok 5
      ∧ ∃ f g : Formula, f.SpelledBy "B || !A" ∧ g.SpelledBy "(B)||! A"
          ∧ ((5 : NodeId) = 5 ↔ f = g) := by
  have hs : (empty.read "A && B" 1).2.WellFormed :=
    wellFormed_empty.read "A && B" 1 (by decide +kernel)
  obtain ⟨hids, -, htexts⟩ := id_eq_iff_formula_eq hs
  have hi : ((empty.read "A && B" 1).2.read "B || !A" 1).1 = .ok 5 := by decide +kernel
  have hj : ((((empty.read "A && B" 1).2.read "B || !A" 1).2.serveAll
      [.read "A && (C" 1, .neg 77, .eliminate .empty 5]).read "(B)||! A" 3).1 = .ok 5 := by
    decide +kernel
  exact ⟨hids 3 1 (by decide +kernel) (by decide +kernel), hi, hj,
    htexts [.read "A && (C" 1, .neg 77, .eliminate .empty 5] _ _ 1 3 5 5 _ hi (Prod.ext hj rfl)
      (by decide +kernel)⟩

end Store

end PresenceTable
