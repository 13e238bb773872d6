/-
  PresenceTable.Proofs.Store.Read
  ───────────────────────────────
  **READING INTO THE STORE.**

  Whatever the store holds already, reading a text into it succeeds exactly
  when the text spells a condition, and the id that is answered stands for
  the tree of that condition.

  Main results:
    * `Consistent.of_read_ok` — the id stands for the tree;
    * `read_ok_iff_spelledBy` — which texts are read, and as what.
-/
import PresenceTable.Proofs.Formula.Reading
import PresenceTable.Proofs.Store.Denotation

namespace PresenceTable

namespace Store

theorem read_of_spelledBy {f : Formula} {text : Bytes} (h : f.SpelledBy text) (s : Store)
    (line : UInt32) : s.read text line = (.ok (s.add f).1, (s.add f).2) := by
  rw [read_eq_take, Formula.ofText_eq_ok_iff.2 h]
  rfl

theorem read_of_not_spelledBy {text : Bytes} (h : ¬ ∃ f : Formula, f.SpelledBy text)
    (s : Store) (line : UInt32) : ∃ error, (s.read text line).1 = .error error := by
  rw [read_eq_take]
  cases hread : Formula.ofText text line with
  | ok f => exact absurd ⟨f, Formula.ofText_eq_ok_iff.1 hread⟩ h
  | error refusal => exact ⟨refusal.error, rfl⟩

/-- A text that was read spells the tree of the id that was answered. -/
theorem Consistent.of_read_ok {s t : Store} (hs : s.Consistent) {text : Bytes}
    {line : UInt32} {id : NodeId} (h : s.read text line = (.ok id, t))
    (hsize : t.size ≤ UInt32.size) : ∃ f : Formula, f.SpelledBy text ∧ t.Denotes id f := by
  by_cases hspelled : ∃ f : Formula, f.SpelledBy text
  · obtain ⟨f, hf⟩ := hspelled
    rw [read_of_spelledBy hf] at h
    cases h
    exact ⟨f, hf, hs.denotes_add hsize⟩
  · obtain ⟨error, herror⟩ := read_of_not_spelledBy hspelled s line
    rw [h] at herror
    cases herror

/-- **Which texts are read, and as what.**  A text is read exactly when it
can be cut into tokens and these form a phrase of the grammar; the id that
is answered stands for the only tree of that phrase.  Any other text is
refused with a syntax error. -/
theorem read_ok_iff_spelledBy {s : Store} (hs : s.WellFormed) (text : Bytes) (line : UInt32)
    (hsize : (s.read text line).2.size < UInt32.size - 1) :
    ((∃ id, (s.read text line).1 = .ok id) ↔ ∃ f : Formula, f.SpelledBy text)
      ∧ (∀ id, (s.read text line).1 = .ok id →
          ∃ f : Formula, f.SpelledBy text ∧ (∀ g : Formula, g.SpelledBy text → g = f)
            ∧ (s.read text line).2.formula id = .ok f)
      ∧ ((¬ ∃ f : Formula, f.SpelledBy text) →
          ∃ error : SyntaxError, (s.read text line).1 = .error error) := by
  have hspelled : ∀ id, (s.read text line).1 = .ok id → ∃ f : Formula, f.SpelledBy text := by
    intro id hok
    by_contra hnone
    obtain ⟨error, herror⟩ := read_of_not_spelledBy hnone s line
    rw [herror] at hok
    cases hok
  refine ⟨⟨fun ⟨id, hok⟩ => hspelled id hok, ?_⟩, ?_, ?_⟩
  · intro h
    obtain ⟨f, hf⟩ := h
    exact ⟨_, congrArg Prod.fst (read_of_spelledBy hf s line)⟩
  · intro id hok
    obtain ⟨f, hf⟩ := hspelled id hok
    rw [read_of_spelledBy hf] at hok hsize ⊢
    have hsize' : (s.add f).2.size ≤ UInt32.size := by dsimp only at hsize; omega
    obtain ⟨hwf, hden⟩ := hs.add hsize'
    cases hok
    exact ⟨f, hf, fun g hg => hg.unique hf, hwf.formula_eq hden⟩
  · intro h
    exact read_of_not_spelledBy h s line

/-- A text that is read into a store that is not empty. -/
theorem read_into_nonempty :
    ∃ id, ((empty.read "A || !B" 1).2.read "!A && (B || C) || C" 7).1 = .ok id
      ∧ ∃ f : Formula, f.SpelledBy "!A && (B || C) || C"
        ∧ ((empty.read "A || !B" 1).2.read "!A && (B || C) || C" 7).2.formula id = .ok f := by
  have hs : (empty.read "A || !B" 1).2.WellFormed :=
    wellFormed_empty.read "A || !B" 1 (by decide +kernel)
  obtain ⟨-, htree, -⟩ :=
    read_ok_iff_spelledBy hs "!A && (B || C) || C" 7 (by decide +kernel)
  have hok : ((empty.read "A || !B" 1).2.read "!A && (B || C) || C" 7).1 = .ok 9 := by
    decide +kernel
  obtain ⟨f, hf, -, hformula⟩ := htree 9 hok
  exact ⟨9, hok, f, hf, hformula⟩

end Store

end PresenceTable
