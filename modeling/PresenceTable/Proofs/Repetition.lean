/-
  PresenceTable.Proofs.Repetition
  ───────────────────────────────
  **LINES THAT COME AGAIN.**

  A line leaves in the store the condition that was read from it, or what was
  finished of it when it was refused, and the stages of the elimination, also
  those that are no part of the answer.  Which trees these are depends on the
  line alone, and a store never loses a tree.  So when the line comes again,
  at any later moment and under any number, all of it is found: the store
  stays as it is, and the same ids are recorded.

  Main results:
    * `judge_onLine` — what the number of a line changes;
    * `judge_snd` — the store after a line;
    * `Store.Remembers.judge_eq` — a line that comes again;
    * `Conversion.line_again` — one line, and a whole listing.
-/
import PresenceTable.Proofs.Accounting
import PresenceTable.Proofs.Session

namespace PresenceTable

/-! ## §1. The number of a line. -/

/-- The same verdict on a line with another number. -/
def Verdict.onLine (number : UInt32) : Verdict → Verdict
  | .unreadable path condition error => .unreadable path condition (error.onLine number)
  | v => v

theorem Verdict.records_onLine (number : UInt32) (v : Verdict) :
    (v.onLine number).records = v.records := by
  cases v <;> rfl

theorem Store.read_onLine (s : Store) (text : Bytes) (line line' : UInt32) :
    s.read text line'
      = ((s.read text line).1.mapError (·.onLine line'), (s.read text line).2) := by
  rw [read_eq_take, read_eq_take, Formula.ofText_onLine text line line']
  cases Formula.ofText text line <;> rfl

theorem judgeCondition_onLine (erased : Name → Bool) (s : Store) (path condition : Bytes)
    (line line' : UInt32) :
    judgeCondition erased s path condition line'
      = ((judgeCondition erased s path condition line).1.onLine line',
        (judgeCondition erased s path condition line).2) := by
  have honLine := s.read_onLine condition line line'
  rcases hread : s.read condition line with ⟨error | id, t⟩
  · rw [hread] at honLine
    unfold judgeCondition
    rw [honLine, hread]
    rfl
  · -- what was read is the same, and so is its elimination
    rw [hread] at honLine
    rw [judgeCondition_of_read hread, judgeCondition_of_read honLine]
    cases (t.eliminate erased id).1 <;> rfl

/-- **The number of a line** stands in the verdict when the condition can not
be read, and makes no other difference. -/
theorem judge_onLine (erased : Name → Bool) (s : Store) (text : Bytes) (line line' : UInt32) :
    judge erased s text line'
      = ((judge erased s text line).1.onLine line', (judge erased s text line).2) := by
  unfold judge
  cases ListingLine.ofText text with
  | blank | malformed => rfl
  | entry path condition =>
      dsimp only
      split
      · rfl
      · exact judgeCondition_onLine erased s path condition line line'

/-! ## §2. The store after a line. -/

/-- The trees that are stored for a condition, in their order: the tree of
the condition and the stages of its elimination, or what was finished before
the condition was refused. -/
def conditionStages (erased : Name → Bool) (condition : Bytes) : List Formula :=
  match Formula.ofText condition 1 with
  | .ok f => f :: f.stages erased
  | .error refusal => refusal.finished

/-- The trees that are stored for a line. -/
def lineStages (erased : Name → Bool) (text : Bytes) : List Formula :=
  match ListingLine.ofText text with
  | .blank | .malformed => []
  | .entry _ condition =>
      if Bytes.occursIn invalidMarker condition then [] else conditionStages erased condition

theorem judgeCondition_snd {erased : Name → Bool} {s : Store} (hs : s.WellFormed)
    {path condition : Bytes}
    (hroom : (judgeCondition erased s path condition 1).2.size ≤ UInt32.size
      ∨ (s.addAll (conditionStages erased condition)).size ≤ UInt32.size) :
    (judgeCondition erased s path condition 1).2
      = s.addAll (conditionStages erased condition) := by
  unfold conditionStages at hroom ⊢
  cases htext : Formula.ofText condition 1 with
  | error refusal =>
      unfold judgeCondition
      rw [Store.read_eq_take, htext]
      rfl
  | ok f =>
      have hspelled := Formula.ofText_eq_ok_iff.1 htext
      rw [htext, judgeCondition_of_read (Store.read_of_spelledBy hspelled s 1)] at hroom
      rw [judgeCondition_of_read (Store.read_of_spelledBy hspelled s 1)]
      -- the tree is stored first, and on either side there is room for it
      have hgrows := Store.grows_eliminate (s.add f).2 erased (s.add f).1
      have hgrows' := Store.grows_addAll (f.stages erased) (s.add f).2
      have hsize : (s.add f).2.size ≤ UInt32.size :=
        hroom.elim (Nat.le_trans hgrows.size_le) (Nat.le_trans hgrows'.size_le)
      obtain ⟨hadd, hden⟩ := hs.add hsize
      exact hadd.eliminate_snd hden hroom

/-- **The store after a line** is the store with the trees of the line in it.
There have to be ids for all nodes, on one side or the other. -/
theorem judge_snd {erased : Name → Bool} {s : Store} (hs : s.WellFormed) {text : Bytes}
    {line : UInt32}
    (hroom : (judge erased s text line).2.size ≤ UInt32.size
      ∨ (s.addAll (lineStages erased text)).size ≤ UInt32.size) :
    (judge erased s text line).2 = s.addAll (lineStages erased text) := by
  rw [judge_onLine erased s text 1 line] at hroom ⊢
  unfold judge lineStages at hroom ⊢
  cases htext : ListingLine.ofText text with
  | blank | malformed => rfl
  | entry path condition =>
      rw [htext] at hroom
      dsimp only at hroom ⊢
      cases hmarker : Bytes.occursIn invalidMarker condition with
      | true => rfl
      | false =>
          rw [hmarker] at hroom
          exact judgeCondition_snd hs hroom

/-! ## §3. A line that comes again. -/

namespace Store

/-- The store holds all that a conversion of the line stores, and the records
are ids of its trees. -/
structure Remembers (erased : Name → Bool) (s : Store) (text : Bytes) (records : List Record) :
    Prop where
  stages : s.Stores (lineStages erased text)
  holds : List.Forall₂ s.Holds records (lineTrees erased text)

variable {erased : Name → Bool} {s t : Store} {text : Bytes} {records : List Record}

/-- Nothing is forgotten. -/
theorem Remembers.of_grows (h : Grows s t) (hs : s.Remembers erased text records) :
    t.Remembers erased text records where
  stages := hs.stages.of_grows h
  holds := hs.holds.imp fun _ _ hrow => hrow.of_grows h

/-- A line that was converted is remembered. -/
theorem WellFormed.remembers_judge (hs : s.WellFormed) {line : UInt32}
    (hsize : (judge erased s text line).2.size ≤ UInt32.size) :
    (judge erased s text line).2.Remembers erased text (judge erased s text line).1.records where
  stages := by
    have hsnd := judge_snd hs (.inl hsize)
    rw [hsnd] at hsize ⊢
    exact hs.toConsistent.stores_addAll hsize
  holds := (judge_spec hs hsize).2.2

/-- The rows that a store holds have one record each. -/
theorem Consistent.leftUnique_holds (hs : s.Consistent) : Relator.LeftUnique s.Holds := by
  rintro ⟨path, i⟩ ⟨path', j⟩ row ⟨hpath, hi⟩ ⟨hpath', hj⟩
  have hid : i = j := hi.id_unique hs hj
  rw [hid, show path = path' from hpath.trans hpath'.symm]

/-- **A line that comes again** leaves the store as it is, and records what it
recorded before. -/
theorem Remembers.judge_eq (h : s.Remembers erased text records) (hs : s.WellFormed)
    (line : UInt32) :
    (judge erased s text line).2 = s ∧ (judge erased s text line).1.records = records := by
  have hsame : s.addAll (lineStages erased text) = s := hs.addAll_of_stores h.stages
  have hsnd : (judge erased s text line).2 = s := by
    rw [judge_snd hs (.inr (hsame.symm ▸ hs.size_le)), hsame]
  have hholds := (judge_spec hs (hsnd.symm ▸ hs.size_le)).2.2
  rw [hsnd] at hholds
  exact ⟨hsnd, List.left_unique_forall₂' hs.leftUnique_holds hholds h.holds⟩

end Store

/-! ## §4. Conversions. -/

namespace Conversion

variable {erased : Name → Bool} {c : Conversion}

/-- A line that was converted is remembered, with records that do not depend
on its number. -/
theorem remembers_line (hc : c.store.WellFormed) {text : Bytes} {number : UInt32}
    (hsize : (c.line erased text number).2.store.size ≤ UInt32.size) :
    (c.line erased text number).2.store.WellFormed
      ∧ (c.line erased text number).2.store.Remembers erased text
          (judge erased c.store text 1).1.records := by
  rw [store_line] at hsize ⊢
  have hremembers := hc.remembers_judge hsize
  have honLine := congrArg Prod.fst (judge_onLine erased c.store text 1 number)
  rw [honLine, Verdict.records_onLine] at hremembers
  exact ⟨(judge_spec hc hsize).2.1, hremembers⟩

/-- What a line adds to the records does not depend on its number. -/
theorem records_line_onLine (erased : Name → Bool) (c : Conversion) (text : Bytes)
    (number : UInt32) :
    (c.line erased text number).2.records.toList
      = c.records.toList ++ (judge erased c.store text 1).1.records := by
  rw [records_line, judge_onLine erased c.store text 1 number, Verdict.records_onLine]

/-- **A line that comes again** adds the records that it is remembered with,
and nothing to the store. -/
theorem line_of_remembers (hc : c.store.WellFormed) {text : Bytes} {records : List Record}
    (h : c.store.Remembers erased text records) (number : UInt32) :
    (c.line erased text number).1 = .ok ()
      ∧ (c.line erased text number).2.store = c.store
      ∧ (c.line erased text number).2.records.toList = c.records.toList ++ records := by
  obtain ⟨hstore, hrecords⟩ := h.judge_eq hc number
  refine ⟨(line_ok hc.navigable erased text number).1, ?_, ?_⟩
  · rw [store_line, hstore]
  · rw [records_line, hrecords]

/-- **All lines of a run are remembered** in the store at its end. -/
theorem remembers_lines (ls : List (Bytes × UInt32)) :
    ∀ {c : Conversion}, c.store.WellFormed →
      (c.lines erased ls).2.store.size ≤ UInt32.size →
      (c.lines erased ls).2.store.WellFormed
        ∧ ∃ blocks : List (List Record),
          List.Forall₂ (fun l => (c.lines erased ls).2.store.Remembers erased l.1) ls blocks
            ∧ (c.lines erased ls).2.records.toList = c.records.toList ++ blocks.flatten := by
  induction ls with
  | nil => intro c hc _; exact ⟨hc, [], .nil, (List.append_nil _).symm⟩
  | cons l ls ih =>
      intro c hc hsize
      obtain ⟨text, number⟩ := l
      rw [lines_cons hc.navigable] at hsize ⊢
      have hgrows := grows_lines erased ls (c.line erased text number).2
      obtain ⟨hline, hfirst⟩ := remembers_line hc (Nat.le_trans hgrows.size_le hsize)
      obtain ⟨hwf, blocks, hblocks, hrecords⟩ := ih hline hsize
      -- the first line is remembered in a store that has grown since
      refine ⟨hwf, _, .cons (hfirst.of_grows hgrows) hblocks, ?_⟩
      rw [hrecords, records_line_onLine, List.flatten_cons, List.append_assoc]

/-- **Lines that come again** add the records that they are remembered with,
and nothing to the store. -/
theorem lines_of_remembers {s : Store} (hs : s.WellFormed) {ls : List (Bytes × UInt32)}
    {blocks : List (List Record)}
    (h : List.Forall₂ (fun l => s.Remembers erased l.1) ls blocks) :
    ∀ {c : Conversion}, c.store = s →
      (c.lines erased ls).2.store = s
        ∧ (c.lines erased ls).2.records.toList = c.records.toList ++ blocks.flatten := by
  induction h with
  | nil => intro c hc; exact ⟨hc, (List.append_nil _).symm⟩
  | @cons l block ls blocks hl _ ih =>
      rintro c rfl
      obtain ⟨text, number⟩ := l
      obtain ⟨-, hstore, hrecords⟩ := line_of_remembers hs hl number
      obtain ⟨hstore', hrecords'⟩ := ih hstore
      rw [lines_cons hs.navigable]
      refine ⟨hstore', ?_⟩
      rw [hrecords', hrecords, List.flatten_cons, List.append_assoc]

/-- **Conversion is repeatable in place.**  What a line adds to the records
does not depend on its number.  When it comes again after any session in
which operands exist when they are named, it adds the same, and the store
stays what it is, with its nodes and the number of its variables.  So a
listing that is converted twice adds the same records twice, and leaves the
store as it was after the first time. -/
theorem line_again {c : Conversion} (hc : c.store.WellFormed) (types : TypeTable) :
    (∀ text : Bytes, ∃ emitted : List Record, ∀ number : UInt32,
        (c.line types.erases text number).1 = .ok ()
          ∧ (c.line types.erases text number).2.records.toList = c.records.toList ++ emitted
          ∧ ∀ (requests : List Request) (later : Conversion) (number' : UInt32),
              (c.line types.erases text number).2.store.GroundedAll requests →
              later.store = (c.line types.erases text number).2.store.serveAll requests →
              later.store.size < UInt32.size - 1 →
              (later.line types.erases text number').1 = .ok ()
                ∧ (later.line types.erases text number').2.store = later.store
                ∧ (later.line types.erases text number').2.records.toList
                    = later.records.toList ++ emitted)
    ∧ ∀ input : Input, (c.listing types.erases input).2.store.size < UInt32.size - 1 →
        ((c.listing types.erases input).2.listing types.erases input).2.store
            = (c.listing types.erases input).2.store
          ∧ ∃ emitted : List Record,
              (c.listing types.erases input).2.records.toList = c.records.toList ++ emitted
                ∧ ((c.listing types.erases input).2.listing types.erases input).2.records.toList
                    = (c.listing types.erases input).2.records.toList ++ emitted := by
  constructor
  · intro text
    refine ⟨(judge types.erases c.store text 1).1.records, fun number => ?_⟩
    have hok := (line_ok hc.navigable types.erases text number).1
    refine ⟨hok, records_line_onLine types.erases c text number, ?_⟩
    intro requests later number' hgrounded hlater hsize
    rw [hlater] at hsize
    have hsession := Store.grows_serveAll requests (c.line types.erases text number).2.store
    have hfirst : (c.line types.erases text number).2.store.size ≤ UInt32.size := by
      have hle := hsession.size_le
      omega
    obtain ⟨hwf, hremembers⟩ := remembers_line hc hfirst
    have hserved := hwf.serveAll requests hgrounded (by omega)
    have hkept := hremembers.of_grows hsession
    rw [← hlater] at hserved hkept
    exact line_of_remembers hserved hkept number'
  · intro input hsize
    simp only [listing_snd] at hsize ⊢
    have hfirst : (c.lines types.erases input.numberedLines).2.store.size ≤ UInt32.size := by
      omega
    obtain ⟨hwf, blocks, hblocks, hrecords⟩ := remembers_lines input.numberedLines hc hfirst
    obtain ⟨hstore, hrecords'⟩ := lines_of_remembers hwf hblocks rfl
    exact ⟨hstore, blocks.flatten, hrecords, hrecords'⟩

/-- A line before and after a session that asks for some of its parts, under
another number; and a listing with a line that is refused in its middle. -/
theorem line_again_later :
    (∃ first later : Conversion,
      first = (start.line (TypeTable.empty.declare "X" "bool").erases
          "a.c: !(B || X_MODULE) && A" 7).2
        ∧ later.store = first.store.serveAll
          [.read "C || A" 3, .neg 3, .eliminate (TypeTable.empty.declare "X" "bool") 4]
        ∧ (later.line (TypeTable.empty.declare "X" "bool").erases
            "a.c: !(B || X_MODULE) && A" 9).2.store = later.store
        ∧ (later.line (TypeTable.empty.declare "X" "bool").erases
            "a.c: !(B || X_MODULE) && A" 9).2.records.toList
          = later.records.toList ++ [(("a.c" : Bytes), 0), ("a.c", 8)])
    ∧ ((start.listing TypeTable.empty.erases
            ⟨"a.c: !(A || B) && (\nno file\nb.c: !B", true⟩).2.listing
          TypeTable.empty.erases ⟨"a.c: !(A || B) && (\nno file\nb.c: !B", true⟩).2.store
        = (start.listing TypeTable.empty.erases
            ⟨"a.c: !(A || B) && (\nno file\nb.c: !B", true⟩).2.store := by
  obtain ⟨hline, -⟩ :=
    line_again (c := start) Store.wellFormed_empty (TypeTable.empty.declare "X" "bool")
  obtain ⟨-, hlisting⟩ := line_again (c := start) Store.wellFormed_empty TypeTable.empty
  refine ⟨?_, (hlisting _ (by decide +kernel)).1⟩
  obtain ⟨emitted, hemitted⟩ := hline "a.c: !(B || X_MODULE) && A"
  obtain ⟨-, hrecords, hagain⟩ := hemitted 7
  have hemitted : emitted = [(("a.c" : Bytes), 0), ("a.c", 8)] :=
    hrecords.symm.trans (by decide +kernel)
  obtain ⟨-, hstore, hrecords'⟩ := hagain
    [.read "C || A" 3, .neg 3, .eliminate (TypeTable.empty.declare "X" "bool") 4]
    { store := _ } 9
    ⟨trivial, by show (3 : NodeId).toNat < _; decide +kernel, trivial, trivial⟩ rfl
    (by decide +kernel)
  rw [hemitted] at hrecords'
  exact ⟨_, _, rfl, rfl, hstore, hrecords'⟩

end Conversion

end PresenceTable
