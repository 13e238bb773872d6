/-
  PresenceTable.Proofs.Conversion
  ───────────────────────────────
  **WHAT A CONVERSION RECORDS.**

  The trees that a line gives to its file depend on the line and on the
  erased names alone: `bot` first, and on top of it the condition after
  elimination, if the condition can be used.  `lineTrees` lists them.  The
  records of a conversion are ids of these trees in its store, whatever
  the store held before and however it grows on the way.

  Main results:
    * `judge_spec` — the verdict on one line;
    * `Conversion.Holds.lines` — a run over any number of lines ends well
      and records the trees of all of them.
-/
import PresenceTable.Proofs.Store.Elimination
import PresenceTable.Proofs.Store.Read

namespace PresenceTable

/-! ## §1. The trees of a line. -/

/-- The condition after elimination, if it can be used: it is not marked as
invalid, and it can be read. -/
def usable? (erased : Name → Bool) (condition : Bytes) : Option Formula :=
  if Bytes.occursIn invalidMarker condition then none
  else
    match Formula.ofText condition 1 with
    | .ok f => some (f.eliminate erased)
    | .error _ => none

/-- The trees that are recorded for a line. -/
def lineTrees (erased : Name → Bool) (text : Bytes) : List (Bytes × Formula) :=
  match ListingLine.ofText text with
  | .blank | .malformed => []
  | .entry path condition =>
      (path, .bot) :: (usable? erased condition).toList.map (path, ·)

/-- The record names the path, and an id of the tree. -/
def Store.Holds (s : Store) (r : Record) (row : Bytes × Formula) : Prop :=
  r.1 = row.1 ∧ s.Denotes r.2 row.2

theorem Store.Holds.of_grows {s t : Store} (h : Store.Grows s t) {r : Record}
    {row : Bytes × Formula} (hr : s.Holds r row) : t.Holds r row :=
  ⟨hr.1, hr.2.of_grows h⟩

theorem usable?_of_spelledBy {erased : Name → Bool} {condition : Bytes} {f : Formula}
    (hmarker : Bytes.occursIn invalidMarker condition = false) (hf : f.SpelledBy condition) :
    usable? erased condition = some (f.eliminate erased) := by
  unfold usable?
  rw [hmarker, Formula.ofText_eq_ok_iff.2 hf]
  rfl

theorem usable?_of_not_spelledBy {erased : Name → Bool} {condition : Bytes}
    (h : ¬ ∃ f : Formula, f.SpelledBy condition) : usable? erased condition = none := by
  unfold usable?
  split
  · rfl
  · split
    · next f hread => exact absurd ⟨f, Formula.ofText_eq_ok_iff.1 hread⟩ h
    · rfl

/-! ## §2. The verdict on a line. -/

/-- The verdict ends no conversion, and its records hold the trees, in the
well-formed store that comes with it. -/
def Settles (result : Verdict × Store) (rows : List (Bytes × Formula)) : Prop :=
  result.1.fault? = none ∧ result.2.WellFormed
    ∧ List.Forall₂ result.2.Holds result.1.records rows

theorem Store.WellFormed.holds_bot {s : Store} (hs : s.WellFormed) (path : Bytes) :
    s.Holds (path, Store.botId) (path, .bot) :=
  ⟨rfl, hs.denotes_botId⟩

theorem judgeCondition_of_read {erased : Name → Bool} {s t : Store} {path condition : Bytes}
    {line : UInt32} {id : NodeId} (h : s.read condition line = (.ok id, t)) :
    judgeCondition erased s path condition line
      = (match (t.eliminate erased id).1 with
          | .error fault => .failed path fault
          | .ok id => .converted path id,
        (t.eliminate erased id).2) := by
  unfold judgeCondition
  rw [h]
  dsimp only
  split
  · next h' => rw [h']
  · next h' => rw [h']

theorem judgeCondition_of_spelledBy {erased : Name → Bool} {s : Store} (hs : s.WellFormed)
    {path condition : Bytes} {line : UInt32} {f : Formula} (hf : f.SpelledBy condition)
    (hsize : (judgeCondition erased s path condition line).2.size ≤ UInt32.size) :
    Settles (judgeCondition erased s path condition line)
      [(path, .bot), (path, f.eliminate erased)] := by
  rw [judgeCondition_of_read (Store.read_of_spelledBy hf s line)] at hsize ⊢
  -- the condition is stored first, and then eliminated in the store that holds it
  have hgrows := Store.grows_eliminate (s.add f).2 erased (s.add f).1
  obtain ⟨hadd, hden⟩ := hs.add (Nat.le_trans hgrows.size_le hsize)
  obtain ⟨id, hok, hwf, hden⟩ := hadd.eliminate hden hsize
  rw [hok]
  exact ⟨rfl, hwf, .cons (hwf.holds_bot path) (.cons ⟨rfl, hden⟩ .nil)⟩

theorem judgeCondition_of_not_spelledBy {erased : Name → Bool} {s : Store}
    (hs : s.WellFormed) {path condition : Bytes} {line : UInt32}
    (h : ¬ ∃ f : Formula, f.SpelledBy condition)
    (hsize : (judgeCondition erased s path condition line).2.size ≤ UInt32.size) :
    Settles (judgeCondition erased s path condition line) [(path, .bot)] := by
  obtain ⟨error, herror⟩ := Store.read_of_not_spelledBy h s line
  have hwf := hs.read condition line
  unfold judgeCondition at hsize ⊢
  rcases hread : s.read condition line with ⟨answer, t⟩
  rw [hread] at herror hwf hsize
  cases herror
  exact ⟨rfl, hwf hsize, .cons ((hwf hsize).holds_bot path) .nil⟩

/-- **The verdict on a line**: it records the trees of the line. -/
theorem judge_spec {erased : Name → Bool} {s : Store} (hs : s.WellFormed) {text : Bytes}
    {line : UInt32} (hsize : (judge erased s text line).2.size ≤ UInt32.size) :
    Settles (judge erased s text line) (lineTrees erased text) := by
  unfold judge at hsize ⊢
  unfold lineTrees
  cases htext : ListingLine.ofText text with
  | blank | malformed => exact ⟨rfl, hs, .nil⟩
  | entry path condition =>
      rw [htext] at hsize
      dsimp only at hsize ⊢
      cases hmarker : Bytes.occursIn invalidMarker condition with
      | true =>
          have hnone : usable? erased condition = none := by simp [usable?, hmarker]
          rw [hnone]
          exact ⟨rfl, hs, .cons (hs.holds_bot path) .nil⟩
      | false =>
          rw [hmarker] at hsize
          by_cases hspelled : ∃ f : Formula, f.SpelledBy condition
          · obtain ⟨f, hf⟩ := hspelled
            rw [usable?_of_spelledBy hmarker hf]
            exact judgeCondition_of_spelledBy hs hf hsize
          · rw [usable?_of_not_spelledBy hspelled]
            exact judgeCondition_of_not_spelledBy hs hspelled hsize

/-! ## §3. A run over lines. -/

namespace Conversion

theorem line_of_fault?_eq_none {erased : Name → Bool} {c : Conversion} {text : Bytes}
    {number : UInt32} (h : (judge erased c.store text number).1.fault? = none) :
    (c.line erased text number).1 = .ok () := by
  obtain ⟨store, stats, records, diagnostics⟩ := c
  unfold line
  dsimp only at h ⊢
  rw [h]

/-- The answer to a line, from the verdict on it. -/
theorem line_fst (erased : Name → Bool) (c : Conversion) (text : Bytes) (number : UInt32) :
    (c.line erased text number).1
      = (match (judge erased c.store text number).1.fault? with
          | none => .ok ()
          | some fault => .error fault) := by
  obtain ⟨store, stats, records, diagnostics⟩ := c
  unfold line
  dsimp only
  cases (judge erased store text number).1.fault? <;> rfl

/-- The conversion after a line, from the verdict on it. -/
theorem line_snd (erased : Name → Bool) (c : Conversion) (text : Bytes) (number : UInt32) :
    (c.line erased text number).2
      = { store := (judge erased c.store text number).2
          stats := c.stats.count (judge erased c.store text number).1
          records := c.records ++ (judge erased c.store text number).1.records
          diagnostics := c.diagnostics
            ++ ((judge erased c.store text number).1.diagnostic? number).toList } := by
  obtain ⟨store, stats, records, diagnostics⟩ := c
  unfold line
  dsimp only
  split <;> rfl

theorem store_line (erased : Name → Bool) (c : Conversion) (text : Bytes) (number : UInt32) :
    (c.line erased text number).2.store = (judge erased c.store text number).2 := by
  rw [line_snd]

theorem stats_line (erased : Name → Bool) (c : Conversion) (text : Bytes) (number : UInt32) :
    (c.line erased text number).2.stats = c.stats.count (judge erased c.store text number).1 := by
  rw [line_snd]

theorem records_line (erased : Name → Bool) (c : Conversion) (text : Bytes)
    (number : UInt32) :
    (c.line erased text number).2.records.toList
      = c.records.toList ++ (judge erased c.store text number).1.records := by
  rw [line_snd, Array.toList_appendList]

theorem diagnostics_line (erased : Name → Bool) (c : Conversion) (text : Bytes)
    (number : UInt32) :
    (c.line erased text number).2.diagnostics.toList
      = c.diagnostics.toList
        ++ ((judge erased c.store text number).1.diagnostic? number).toList := by
  rw [line_snd, Array.toList_appendList]

theorem grows_line (erased : Name → Bool) (c : Conversion) (text : Bytes) (number : UInt32) :
    Store.Grows c.store (c.line erased text number).2.store := by
  rw [store_line]
  exact Store.grows_judge erased c.store text number

theorem grows_lines (erased : Name → Bool) (ls : List (Bytes × UInt32)) :
    ∀ c : Conversion, Store.Grows c.store (c.lines erased ls).2.store := by
  -- also when a line ends the run, since its store is kept
  induction ls with
  | nil => intro c; exact Store.Grows.refl _
  | cons l ls ih =>
      intro c
      obtain ⟨text, number⟩ := l
      have hline := grows_line erased c text number
      rw [lines]
      split
      · next h => rw [h] at hline; exact hline.trans (ih _)
      · next h => rw [h] at hline; exact hline

/-- The store is well-formed, and the records are ids of these trees. -/
structure Holds (c : Conversion) (rows : List (Bytes × Formula)) : Prop where
  wellFormed : c.store.WellFormed
  records : List.Forall₂ c.store.Holds c.records.toList rows

theorem holds_start : Conversion.start.Holds [] where
  wellFormed := Store.wellFormed_empty
  records := .nil

/-- One line adds its trees. -/
theorem Holds.line {c : Conversion} {rows : List (Bytes × Formula)} (hc : c.Holds rows)
    (erased : Name → Bool) (text : Bytes) (number : UInt32)
    (hsize : (c.line erased text number).2.store.size ≤ UInt32.size) :
    (c.line erased text number).1 = .ok ()
      ∧ (c.line erased text number).2.Holds (rows ++ lineTrees erased text) := by
  have hgrows := grows_line erased c text number
  rw [store_line] at hsize
  have hsettles := judge_spec hc.wellFormed hsize
  refine ⟨line_of_fault?_eq_none hsettles.1, ?_, ?_⟩
  · rw [store_line]
    exact hsettles.2.1
  · -- the older records hold in the larger store, and the new ones were made for it
    have holder := hc.records.imp fun _ _ h => Store.Holds.of_grows hgrows h
    rw [records_line]
    refine List.rel_append holder ?_
    rw [store_line]
    exact hsettles.2.2

/-- **Any number of lines add their trees**, and none of them ends the run. -/
theorem Holds.lines (erased : Name → Bool) (ls : List (Bytes × UInt32)) :
    ∀ {c : Conversion} {rows : List (Bytes × Formula)}, c.Holds rows →
      (c.lines erased ls).2.store.size ≤ UInt32.size →
      (c.lines erased ls).1 = .ok ()
        ∧ (c.lines erased ls).2.Holds (rows ++ ls.flatMap (lineTrees erased ·.1)) := by
  induction ls with
  | nil =>
      intro c rows hc _
      rw [List.flatMap_nil, List.append_nil]
      exact ⟨rfl, hc⟩
  | cons l ls ih =>
      intro c rows hc hsize
      obtain ⟨text, number⟩ := l
      have hline := hc.line erased text number
      rw [List.flatMap_cons, ← List.append_assoc]
      rw [Conversion.lines] at hsize ⊢
      rcases hafter : c.line erased text number with ⟨answer, after⟩
      rw [hafter] at hline hsize
      cases answer with
      | error fault =>
          obtain ⟨herror, _⟩ := hline hsize
          cases herror
      | ok _ =>
          have hgrows := grows_lines erased ls after
          have hafter' := hline (Nat.le_trans hgrows.size_le hsize)
          exact ih hafter'.2 hsize

/-! ## §4. A whole listing. -/

theorem map_fst_numberedLines (input : Input) :
    input.numberedLines.map Prod.fst = input.lines := by
  unfold Input.numberedLines
  rw [List.map_map]
  exact List.zipIdx_map_fst 1 input.lines

/-- **A listing adds the trees of its lines**, and nothing but the reading
of it can break off. -/
theorem Holds.listing {c : Conversion} {rows : List (Bytes × Formula)} (hc : c.Holds rows)
    (erased : Name → Bool) (input : Input)
    (hsize : (c.listing erased input).2.store.size ≤ UInt32.size) :
    (c.listing erased input).1
        = (if input.interrupted then .error (.interrupted input.lineCount) else .ok ())
      ∧ (c.listing erased input).2.Holds (rows ++ input.lines.flatMap (lineTrees erased)) := by
  have hlines := hc.lines erased input.numberedLines
  rw [← map_fst_numberedLines, List.flatMap_map]
  unfold Conversion.listing at hsize ⊢
  rcases hafter : c.lines erased input.numberedLines with ⟨answer, after⟩
  rw [hafter] at hlines hsize
  cases answer with
  | error fault =>
      obtain ⟨herror, _⟩ := hlines hsize
      cases herror
  | ok _ => exact ⟨rfl, (hlines hsize).2⟩

end Conversion

end PresenceTable
