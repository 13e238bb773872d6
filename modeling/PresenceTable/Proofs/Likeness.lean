/-
  PresenceTable.Proofs.Likeness
  ─────────────────────────────
  **CONVERSIONS THAT DIFFER IN THEIR REPORTS.**

  A report quotes the line that it is about and names its number.  What is
  stored, recorded and counted for a line has nothing of that.  So there are
  lines that are judged alike by every store, with reports that are related
  in some way `R`; and when the lines of two listings are judged alike, one
  by one, then the conversions of the two are alike:

      Conversion.Alike R before c c'

  says that `c` and `c'` differ in their reports at most, and that behind
  the reports given before these are related by `R`, one by one.

  Main results:
    * `Conversion.Alike.lines`, `Conversion.Alike.listing` — lines that are
      judged alike leave conversions alike;
    * `forall₂_numbered` — the numbers of lines at the same places.
-/
import PresenceTable.Proofs.Conversion

namespace PresenceTable

/-! ## §1. Lines that are judged alike. -/

/-- The verdicts differ in the reports on their lines at most, and these are
related. -/
structure Verdict.Alike (R : Diagnostic → Diagnostic → Prop) (number number' : UInt32)
    (v v' : Verdict) : Prop where
  records : v.records = v'.records
  count : ∀ stats : Stats, stats.count v = stats.count v'
  fault : v.fault? = v'.fault?
  reports : List.Forall₂ R (v.diagnostic? number).toList (v'.diagnostic? number').toList

/-- Every store judges the numbered lines alike, and is the same after the
one and after the other. -/
def JudgedAlike (R : Diagnostic → Diagnostic → Prop) (erased : Name → Bool)
    (l l' : Bytes × UInt32) : Prop :=
  ∀ s : Store,
    Verdict.Alike R l.2 l'.2 (judge erased s l.1 l.2).1 (judge erased s l'.1 l'.2).1
      ∧ (judge erased s l.1 l.2).2 = (judge erased s l'.1 l'.2).2

/-- Reports that are related have the same severity, so there are as many of
each on either side. -/
theorem Diagnostic.count_eq_of_forall₂ {R : Diagnostic → Diagnostic → Prop}
    (hR : ∀ d d', R d d' → d.severity = d'.severity) {severity : Severity}
    {ds ds' : List Diagnostic} (h : List.Forall₂ R ds ds') :
    count severity ds = count severity ds' := by
  unfold count
  induction h with
  | nil => rfl
  | cons hd _ ih => rw [List.countP_cons, List.countP_cons, ih, hR _ _ hd]

/-! ## §2. Conversions that are alike. -/

namespace Conversion

/-- The conversions differ in their reports at most, and those that were not
given before are related one by one. -/
structure Alike (R : Diagnostic → Diagnostic → Prop) (before : List Diagnostic)
    (c c' : Conversion) : Prop where
  store : c.store = c'.store
  stats : c.stats = c'.stats
  records : c.records = c'.records
  reports : ∃ ds ds', c.diagnostics.toList = before ++ ds ∧ c'.diagnostics.toList = before ++ ds'
    ∧ List.Forall₂ R ds ds'

namespace Alike

variable {R : Diagnostic → Diagnostic → Prop} {erased : Name → Bool} {before : List Diagnostic}
  {c c' : Conversion}

theorem refl (R : Diagnostic → Diagnostic → Prop) (c : Conversion) :
    Alike R c.diagnostics.toList c c :=
  ⟨rfl, rfl, rfl, [], [], (List.append_nil _).symm, (List.append_nil _).symm, .nil⟩

/-- Lines that are judged alike keep conversions alike, and end both or none. -/
theorem line (h : Alike R before c c') {l l' : Bytes × UInt32} (hl : JudgedAlike R erased l l') :
    (c.line erased l.1 l.2).1 = (c'.line erased l'.1 l'.2).1
      ∧ Alike R before (c.line erased l.1 l.2).2 (c'.line erased l'.1 l'.2).2 := by
  obtain ⟨hstore, hstats, hrecords, ds, ds', hds, hds', hreports⟩ := h
  obtain ⟨hverdict, hjudged⟩ := hl c'.store
  rw [← hstore] at hverdict hjudged
  constructor
  · rw [line_fst, line_fst, ← hstore, hverdict.fault]
  · constructor
    · rw [store_line, store_line, ← hstore, hjudged]
    · rw [stats_line, stats_line, ← hstore, ← hstats, hverdict.count]
    · rw [line_snd, line_snd, ← hstore, ← hrecords, hverdict.records]
    · rw [diagnostics_line, diagnostics_line, ← hstore, hds, hds', List.append_assoc,
        List.append_assoc]
      exact ⟨_, _, rfl, rfl, List.rel_append hreports hverdict.reports⟩

/-- **Lines that are judged alike**, one by one, keep conversions alike. -/
theorem lines {ls ls' : List (Bytes × UInt32)} (hls : List.Forall₂ (JudgedAlike R erased) ls ls') :
    ∀ {c c' : Conversion}, Alike R before c c' →
      (c.lines erased ls).1 = (c'.lines erased ls').1
        ∧ Alike R before (c.lines erased ls).2 (c'.lines erased ls').2 := by
  induction hls with
  | nil => intro c c' h; exact ⟨rfl, h⟩
  | @cons l l' ls ls' hl _ ih =>
      intro c c' h
      obtain ⟨hanswer, hafter⟩ := h.line hl
      rw [Conversion.lines, Conversion.lines]
      rcases hline : c.line erased l.1 l.2 with ⟨answer, after⟩
      rcases hline' : c'.line erased l'.1 l'.2 with ⟨answer', after'⟩
      rw [hline, hline'] at hanswer hafter
      cases hanswer
      cases answer with
      | ok _ => exact ih hafter
      | error fault => exact ⟨rfl, hafter⟩

theorem listing (h : Alike R before c c') {input input' : Input}
    (hlines : List.Forall₂ (JudgedAlike R erased) input.numberedLines input'.numberedLines)
    (hinterrupted : input.interrupted = input'.interrupted) :
    (c.listing erased input).1 = (c'.listing erased input').1
      ∧ Alike R before (c.listing erased input).2 (c'.listing erased input').2 := by
  have hcount : input.lineCount = input'.lineCount := by
    have hlength := hlines.length_eq
    unfold Input.numberedLines at hlength
    unfold Input.lineCount
    rw [List.length_map, List.length_map, List.length_zipIdx, List.length_zipIdx] at hlength
    rw [hlength]
  obtain ⟨hanswer, hafter⟩ := lines hlines h
  unfold Conversion.listing
  rcases hrun : c.lines erased input.numberedLines with ⟨answer, after⟩
  rcases hrun' : c'.lines erased input'.numberedLines with ⟨answer', after'⟩
  rw [hrun, hrun'] at hanswer hafter
  cases hanswer
  cases answer with
  | ok _ =>
      dsimp only
      rw [hinterrupted, hcount]
      exact ⟨rfl, hafter⟩
  | error fault => exact ⟨rfl, hafter⟩

theorem model_eq (h : Alike R before c c') : c.model = c'.model := by
  unfold model
  rw [h.records]

theorem count_eq (hR : ∀ d d', R d d' → d.severity = d'.severity) (h : Alike R before c c')
    (severity : Severity) :
    Diagnostic.count severity c.diagnostics.toList
      = Diagnostic.count severity c'.diagnostics.toList := by
  obtain ⟨ds, ds', hds, hds', hreports⟩ := h.reports
  rw [hds, hds', Diagnostic.count_append, Diagnostic.count_append,
    Diagnostic.count_eq_of_forall₂ hR hreports]

end Alike

end Conversion

/-! ## §3. Numbered lines. -/

/-- The lines with their numbers, from the given one on. -/
def numbered (first : Nat) (ls : List Bytes) : List (Bytes × UInt32) :=
  (ls.zipIdx first).map fun (line, number) => (line, UInt32.ofNat number)

theorem numbered_append (first : Nat) (ls ls' : List Bytes) :
    numbered first (ls ++ ls') = numbered first ls ++ numbered (first + ls.length) ls' := by
  unfold numbered
  rw [List.zipIdx_append, List.map_append]

theorem numberedLines_eq (input : Input) : input.numberedLines = numbered 1 input.lines := rfl

/-- Lines at the same places have the same distance from the first. -/
theorem forall₂_numbered {r : Bytes → Bytes → Prop} {ls ls' : List Bytes}
    (h : List.Forall₂ r ls ls') :
    ∀ first first' : Nat,
      List.Forall₂
        (fun l l' => r l.1 l'.1
          ∧ ∃ k, l.2 = UInt32.ofNat (first + k) ∧ l'.2 = UInt32.ofNat (first' + k))
        (numbered first ls) (numbered first' ls') := by
  induction h with
  | nil => intro first first'; exact .nil
  | @cons l l' ls ls' hl _ ih =>
      intro first first'
      refine .cons ⟨hl, 0, rfl, rfl⟩ ((ih (first + 1) (first' + 1)).imp fun _ _ h => ?_)
      obtain ⟨hr, k, hk, hk'⟩ := h
      refine ⟨hr, k + 1, ?_, ?_⟩
      · rw [hk, Nat.add_assoc, Nat.add_comm 1]
      · rw [hk', Nat.add_assoc, Nat.add_comm 1]

end PresenceTable
