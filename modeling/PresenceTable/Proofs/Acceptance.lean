/-
  PresenceTable.Proofs.Acceptance
  ───────────────────────────────
  **WHICH LISTINGS ARE CONVERTED WITHOUT AN ERROR.**

  An error is reported for a line that is not blank and has no ':', and for
  one whose condition is neither marked as invalid nor can be read.  The
  marker comes first: a marked condition is only warned of, whatever else
  stands in it.  No line makes up for another, so a listing is converted
  without an error exactly when each of its lines is acceptable.

  Main results:
    * `judge_errors_eq_zero_iff` — the lines that are not reported as errors;
    * `Conversion.errors_listing_eq_zero_iff` — the listings without one.
-/
import PresenceTable.Proofs.Accounting

namespace PresenceTable

/-! ## §1. One line. -/

namespace ListingLine

/-- The line is blank, or it gives a file, with a condition that is marked
as invalid or can be read. -/
def Acceptable (line : Bytes) : Prop :=
  (∀ b ∈ line, Bytes.isBlank b = true)
    ∨ ∃ path condition, Gives line path condition
        ∧ (invalidMarker <:+: condition ∨ ∃ f : Formula, f.SpelledBy condition)

theorem ofText_eq_blank_iff {line : Bytes} :
    ofText line = .blank ↔ ∀ b ∈ line, Bytes.isBlank b = true := by
  rw [← Bytes.trim_eq_nil_iff]
  unfold ofText
  split
  · next h => simp [h]
  · next h =>
    split <;> simp [h]

theorem acceptable_of_blank {line : Bytes} (h : ofText line = .blank) : Acceptable line :=
  .inl (ofText_eq_blank_iff.1 h)

theorem not_acceptable_of_malformed {line : Bytes} (h : ofText line = .malformed) :
    ¬ Acceptable line := by
  rintro (hblank | ⟨path, condition, hgives, -⟩)
  · cases h.symm.trans (ofText_eq_blank_iff.2 hblank)
  · cases h.symm.trans (ofText_eq_entry_iff_gives.2 hgives)

/-- A line that gives a file is judged by its condition. -/
theorem acceptable_iff_of_entry {line path condition : Bytes}
    (h : ofText line = .entry path condition) :
    Acceptable line ↔ invalidMarker <:+: condition ∨ ∃ f : Formula, f.SpelledBy condition := by
  constructor
  · rintro (hblank | ⟨path', condition', hgives, haccepted⟩)
    · cases h.symm.trans (ofText_eq_blank_iff.2 hblank)
    · cases h.symm.trans (ofText_eq_entry_iff_gives.2 hgives)
      exact haccepted
  · intro haccepted
    exact .inr ⟨path, condition, ofText_eq_entry_iff_gives.1 h, haccepted⟩

end ListingLine

/-- The number of errors that a verdict is reported as. -/
def Verdict.errors (v : Verdict) (number : UInt32) : Nat :=
  Diagnostic.count .error (v.diagnostic? number).toList

theorem judgeCondition_errors_iff {s : Store} (hs : s.Navigable) (erased : Name → Bool)
    (path condition : Bytes) (number : UInt32) :
    (judgeCondition erased s path condition number).1.errors number = 0
      ↔ ∃ f : Formula, f.SpelledBy condition := by
  rcases judgeCondition_eq hs erased path condition number with
    ⟨hspelled, id, t, heq, -⟩ | ⟨hspelled, error, t, heq, -⟩
  · rw [heq]
    exact ⟨fun _ => hspelled, fun _ => rfl⟩
  · rw [heq]
    exact ⟨nofun, fun h => absurd h hspelled⟩

/-- **The lines that are not reported as errors** are the acceptable ones. -/
theorem judge_errors_eq_zero_iff {s : Store} (hs : s.Navigable) (erased : Name → Bool)
    (text : Bytes) (number : UInt32) :
    (judge erased s text number).1.errors number = 0 ↔ ListingLine.Acceptable text := by
  unfold judge
  cases htext : ListingLine.ofText text with
  | blank => exact ⟨fun _ => ListingLine.acceptable_of_blank htext, fun _ => rfl⟩
  | malformed =>
      exact ⟨nofun, fun h => absurd h (ListingLine.not_acceptable_of_malformed htext)⟩
  | entry path condition =>
      rw [ListingLine.acceptable_iff_of_entry htext]
      dsimp only
      by_cases hmarker : Bytes.occursIn invalidMarker condition = true
      · rw [if_pos hmarker]
        exact ⟨fun _ => .inl ((Bytes.occursIn_iff _ _).1 hmarker), fun _ => rfl⟩
      · rw [if_neg hmarker, judgeCondition_errors_iff hs]
        rw [Bytes.occursIn_iff] at hmarker
        exact ⟨.inr, fun h => h.resolve_left hmarker⟩

/-! ## §2. Listings. -/

namespace Conversion

theorem errors_line_eq_zero_iff {c : Conversion} (hc : c.store.Navigable) (erased : Name → Bool)
    (text : Bytes) (number : UInt32) :
    (c.line erased text number).2.errors = 0 ↔ c.errors = 0 ∧ ListingLine.Acceptable text := by
  rw [errors_line, ← judge_errors_eq_zero_iff hc erased text number]
  exact Nat.add_eq_zero_iff

/-- Lines are converted without an error when each of them is. -/
theorem errors_lines_eq_zero_iff (erased : Name → Bool) (ls : List (Bytes × UInt32)) :
    ∀ {c : Conversion}, c.store.Navigable →
      ((c.lines erased ls).2.errors = 0
        ↔ c.errors = 0 ∧ ∀ l ∈ ls, ListingLine.Acceptable l.1) := by
  induction ls with
  | nil =>
      intro c _
      exact ⟨fun h => ⟨h, nofun⟩, And.left⟩
  | cons l ls ih =>
      intro c hc
      rw [lines_cons hc, ih (line_ok hc erased l.1 l.2).2, errors_line_eq_zero_iff hc,
        List.forall_mem_cons, and_assoc]

/-- **A listing is converted without an error** when each of its lines is
acceptable. -/
theorem errors_listing_eq_zero_iff {c : Conversion} (hc : c.store.Navigable)
    (erased : Name → Bool) (input : Input) :
    (c.listing erased input).2.errors = 0
      ↔ c.errors = 0 ∧ ∀ line ∈ input.lines, ListingLine.Acceptable line := by
  rw [listing_snd, errors_lines_eq_zero_iff erased _ hc, ← map_fst_numberedLines input,
    List.forall_mem_map]

end Conversion

end PresenceTable
