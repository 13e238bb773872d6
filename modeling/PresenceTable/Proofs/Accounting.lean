/-
  PresenceTable.Proofs.Accounting
  ───────────────────────────────
  **THE BOOKS OF A CONVERSION.**

  The counts of a conversion, what it records and what it reports come from
  the verdicts on its lines, and from nothing else: a listing whose reading
  broke off, or a store that ran out of ids, leaves no line half done.  So
  the books balance after every call, the records are a block for each
  line, and a line is reported on at most once.

  Main results:
    * `judge_fits` — which verdicts a line can get;
    * `Conversion.Balanced.lines` — the books balance after any lines;
    * `Conversion.records_lines`, `Conversion.diagnostics_lines` — what is
      recorded and reported, from the verdicts;
    * `Conversion.accounting` — all of it, after any calls.
-/
import Mathlib.Data.List.ReduceOption
import PresenceTable.Proofs.Conversion
import PresenceTable.Proofs.Listing
import PresenceTable.Proofs.Store.Navigation

namespace PresenceTable

/-! ## §1. The verdicts that a line can get. -/

/-- The condition can be used: it is not marked as invalid, and it can be
read. -/
def Usable (condition : Bytes) : Prop :=
  ¬ invalidMarker <:+: condition ∧ ∃ f : Formula, f.SpelledBy condition

/-- The verdicts that fit a line with this text.  That the elimination of
its condition failed is not among them. -/
inductive Verdict.Fits (text : Bytes) : Verdict → Prop
  | blank (h : ListingLine.ofText text = .blank) : Fits text .blank
  | malformed (h : ListingLine.ofText text = .malformed) : Fits text (.malformed text)
  | invalid {path condition : Bytes} (h : ListingLine.Gives text path condition)
      (hmarker : invalidMarker <:+: condition) : Fits text (.invalid path)
  | unreadable {path condition : Bytes} (h : ListingLine.Gives text path condition)
      (hspelled : ¬ ∃ f : Formula, f.SpelledBy condition) (error : SyntaxError) :
      Fits text (.unreadable path condition error)
  | converted {path condition : Bytes} (h : ListingLine.Gives text path condition)
      (husable : Usable condition) (id : NodeId) : Fits text (.converted path id)

theorem Verdict.Fits.fault?_eq_none {text : Bytes} {v : Verdict} (h : Verdict.Fits text v) :
    v.fault? = none := by
  cases h <;> rfl

/-- A condition that can be read is converted, and any other is reported. -/
theorem judgeCondition_eq {s : Store} (hs : s.Navigable) (erased : Name → Bool)
    (path condition : Bytes) (line : UInt32) :
    ((∃ f : Formula, f.SpelledBy condition)
          ∧ ∃ id t, judgeCondition erased s path condition line = (.converted path id, t)
            ∧ t.Navigable)
      ∨ ((¬ ∃ f : Formula, f.SpelledBy condition)
          ∧ ∃ error t, judgeCondition erased s path condition line
              = (.unreadable path condition error, t)
            ∧ t.Navigable) := by
  by_cases hspelled : ∃ f : Formula, f.SpelledBy condition
  · obtain ⟨f, hf⟩ := hspelled
    -- the id that is eliminated is that of a node, so there is an answer
    obtain ⟨hadd, hlt⟩ := hs.add (f := f)
    obtain ⟨id, hok, hnav, -⟩ := hadd.eliminate erased hlt
    rw [judgeCondition_of_read (Store.read_of_spelledBy hf s line), hok]
    exact .inl ⟨⟨f, hf⟩, id, _, rfl, hnav⟩
  · obtain ⟨error, herror⟩ := Store.read_of_not_spelledBy hspelled s line
    have hnav := (hs.read condition line).1
    unfold judgeCondition
    rcases hread : s.read condition line with ⟨answer, t⟩
    rw [hread] at herror hnav
    cases herror
    exact .inr ⟨hspelled, error, t, rfl, hnav⟩

theorem judgeCondition_fits {s : Store} (hs : s.Navigable) (erased : Name → Bool)
    {text path condition : Bytes} (line : UInt32)
    (hgives : ListingLine.Gives text path condition)
    (hmarker : ¬ invalidMarker <:+: condition) :
    Verdict.Fits text (judgeCondition erased s path condition line).1
      ∧ (judgeCondition erased s path condition line).2.Navigable := by
  rcases judgeCondition_eq hs erased path condition line with
    ⟨hspelled, id, t, heq, hnav⟩ | ⟨hspelled, error, t, heq, hnav⟩
  · rw [heq]
    exact ⟨.converted hgives ⟨hmarker, hspelled⟩ id, hnav⟩
  · rw [heq]
    exact ⟨.unreadable hgives hspelled error, hnav⟩

/-- **The verdict fits the line**, and the store stays navigable. -/
theorem judge_fits {s : Store} (hs : s.Navigable) (erased : Name → Bool) (text : Bytes)
    (line : UInt32) :
    Verdict.Fits text (judge erased s text line).1
      ∧ (judge erased s text line).2.Navigable := by
  unfold judge
  cases htext : ListingLine.ofText text with
  | blank => exact ⟨.blank htext, hs⟩
  | malformed => exact ⟨.malformed htext, hs⟩
  | entry path condition =>
      have hgives := ListingLine.ofText_eq_entry_iff_gives.1 htext
      dsimp only
      split
      · next hmarker =>
        exact ⟨.invalid hgives ((Bytes.occursIn_iff _ _).1 hmarker), hs⟩
      · next hmarker =>
        rw [Bytes.occursIn_iff] at hmarker
        exact judgeCondition_fits hs erased line hgives hmarker

/-- The verdicts on numbered lines, each with the store that the one before
left. -/
def verdicts (erased : Name → Bool) (s : Store) : List (Bytes × UInt32) → List Verdict
  | [] => []
  | (text, number) :: later =>
    (judge erased s text number).1 :: verdicts erased (judge erased s text number).2 later

theorem length_verdicts (erased : Name → Bool) (ls : List (Bytes × UInt32)) :
    ∀ s : Store, (verdicts erased s ls).length = ls.length := by
  induction ls with
  | nil => intro s; rfl
  | cons l ls ih =>
      intro s
      rw [verdicts, List.length_cons, List.length_cons, ih]

/-- The first verdicts do not depend on later lines. -/
theorem verdicts_take (erased : Name → Bool) (ls : List (Bytes × UInt32)) :
    ∀ (s : Store) (k : Nat), verdicts erased s (ls.take k) = (verdicts erased s ls).take k := by
  induction ls with
  | nil => intro s k; rw [List.take_nil, verdicts, List.take_nil]
  | cons l ls ih =>
      intro s k
      cases k with
      | zero => rfl
      | succ k => rw [List.take_succ_cons, verdicts, verdicts, List.take_succ_cons, ih]

theorem verdicts_fit (erased : Name → Bool) (ls : List (Bytes × UInt32)) :
    ∀ {s : Store}, s.Navigable →
      List.Forall₂ Verdict.Fits (ls.map Prod.fst) (verdicts erased s ls) := by
  induction ls with
  | nil => intro s _; exact .nil
  | cons l ls ih =>
      intro s hs
      obtain ⟨hfits, hnav⟩ := judge_fits hs erased l.1 l.2
      exact .cons hfits (ih hnav)

/-! ## §2. What is recorded and reported. -/

/-- What a line with this text may leave among the records. -/
inductive BlockOf (text : Bytes) : List Record → Prop
  /-- It gives no file. -/
  | none (h : ∀ path condition, ¬ ListingLine.Gives text path condition) : BlockOf text []
  /-- It gives a file, without a condition that can be used. -/
  | baseline {path condition : Bytes} (h : ListingLine.Gives text path condition)
      (hunusable : ¬ Usable condition) : BlockOf text [(path, Store.botId)]
  /-- It gives a file, and a condition for it. -/
  | parsed {path condition : Bytes} (h : ListingLine.Gives text path condition)
      (husable : Usable condition) (id : NodeId) :
      BlockOf text [(path, Store.botId), (path, id)]

theorem ListingLine.not_gives {text : Bytes}
    (h : ∀ path condition, ofText text ≠ .entry path condition) (path condition : Bytes) :
    ¬ Gives text path condition :=
  fun hgives => h path condition (ofText_eq_entry_iff_gives.2 hgives)

theorem Verdict.Fits.blockOf {text : Bytes} {v : Verdict} (h : Verdict.Fits text v) :
    BlockOf text v.records := by
  cases h with
  | blank h => exact .none (ListingLine.not_gives fun _ _ => by rw [h]; exact nofun)
  | malformed h => exact .none (ListingLine.not_gives fun _ _ => by rw [h]; exact nofun)
  | invalid h hmarker => exact .baseline h fun husable => husable.1 hmarker
  | unreadable h hspelled error => exact .baseline h fun husable => hspelled husable.2
  | converted h husable id => exact .parsed h husable id

/-- A parsed line is one that leaves two records. -/
theorem Stats.parsed_count (s : Stats) (v : Verdict) :
    (s.count v).parsed = s.parsed + if v.records.length = 2 then 1 else 0 := by
  cases v <;> rfl

/-- What is reported on each of these lines. -/
def reports (ls : List (Bytes × UInt32)) (vs : List Verdict) : List (Option Diagnostic) :=
  List.zipWith (fun l v => v.diagnostic? l.2) ls vs

theorem line_of_diagnostic? {v : Verdict} {number : UInt32} {d : Diagnostic}
    (h : v.diagnostic? number = some d) : d.line = number := by
  cases v <;> cases h <;> rfl

/-- The numbers on diagnostics are those of lines, in their order. -/
theorem lines_reports_sublist (ls : List (Bytes × UInt32)) :
    ∀ vs : List Verdict,
      ((reports ls vs).reduceOption.map Diagnostic.line).Sublist (ls.map Prod.snd) := by
  induction ls with
  | nil => intro vs; exact List.Sublist.refl _
  | cons l ls ih =>
      intro vs
      cases vs with
      | nil => exact List.nil_sublist _
      | cons v vs =>
          unfold reports
          rw [List.zipWith_cons_cons, List.map_cons]
          cases hreport : v.diagnostic? l.2 with
          | none =>
              rw [List.reduceOption_cons_of_none]
              exact (ih vs).cons _
          | some d =>
              rw [List.reduceOption_cons_of_some, List.map_cons, line_of_diagnostic? hreport]
              exact (ih vs).cons_cons _

namespace Conversion

/-! ## §3. Any number of lines. -/

variable {c : Conversion} {erased : Name → Bool}

/-- No line ends a conversion. -/
theorem line_ok (hc : c.store.Navigable) (erased : Name → Bool) (text : Bytes)
    (number : UInt32) :
    (c.line erased text number).1 = .ok ()
      ∧ (c.line erased text number).2.store.Navigable := by
  obtain ⟨hfits, hnav⟩ := judge_fits hc erased text number
  rw [store_line]
  exact ⟨line_of_fault?_eq_none hfits.fault?_eq_none, hnav⟩

/-- Later lines are converted whatever became of the first. -/
theorem lines_cons (hc : c.store.Navigable) (text : Bytes) (number : UInt32)
    (later : List (Bytes × UInt32)) :
    c.lines erased ((text, number) :: later)
      = (c.line erased text number).2.lines erased later := by
  have hok := (line_ok hc erased text number).1
  rw [lines]
  rcases hline : c.line erased text number with ⟨answer, after⟩
  rw [hline] at hok
  cases hok
  rfl

/-- **Lines never end a conversion**, whatever the size of the store. -/
theorem lines_ok (erased : Name → Bool) (ls : List (Bytes × UInt32)) :
    ∀ {c : Conversion}, c.store.Navigable →
      (c.lines erased ls).1 = .ok () ∧ (c.lines erased ls).2.store.Navigable := by
  induction ls with
  | nil => intro c hc; exact ⟨rfl, hc⟩
  | cons l ls ih =>
      intro c hc
      rw [lines_cons hc]
      exact ih (line_ok hc erased l.1 l.2).2

/-- Further lines are converted from where the first ones end. -/
theorem lines_append_eq (hc : c.store.Navigable) (erased : Name → Bool)
    (ls later : List (Bytes × UInt32)) :
    c.lines erased (ls ++ later) = (c.lines erased ls).2.lines erased later := by
  have hok := (lines_ok erased ls hc).1
  rw [lines_append]
  -- the first lines end well, so the others follow them
  rcases hlines : c.lines erased ls with ⟨answer, after⟩
  rw [hlines] at hok
  cases hok
  rfl

/-- **What is recorded**, from the verdicts. -/
theorem records_lines (ls : List (Bytes × UInt32)) :
    ∀ {c : Conversion}, c.store.Navigable →
      (c.lines erased ls).2.records.toList
        = c.records.toList ++ ((verdicts erased c.store ls).map Verdict.records).flatten := by
  induction ls with
  | nil => intro c _; exact (List.append_nil _).symm
  | cons l ls ih =>
      intro c hc
      rw [lines_cons hc, ih (line_ok hc erased l.1 l.2).2, records_line, store_line, verdicts,
        List.map_cons, List.flatten_cons, List.append_assoc]

/-- **What is reported**, from the verdicts. -/
theorem diagnostics_lines (ls : List (Bytes × UInt32)) :
    ∀ {c : Conversion}, c.store.Navigable →
      (c.lines erased ls).2.diagnostics.toList
        = c.diagnostics.toList ++ (reports ls (verdicts erased c.store ls)).reduceOption := by
  induction ls with
  | nil => intro c _; exact (List.append_nil _).symm
  | cons l ls ih =>
      intro c hc
      have hreports : (reports (l :: ls) (verdicts erased c.store (l :: ls))).reduceOption
          = ((judge erased c.store l.1 l.2).1.diagnostic? l.2).toList
            ++ (reports ls (verdicts erased (judge erased c.store l.1 l.2).2 ls)).reduceOption := by
        unfold reports
        rw [verdicts, List.zipWith_cons_cons]
        cases (judge erased c.store l.1 l.2).1.diagnostic? l.2 with
        | none => exact List.reduceOption_cons_of_none _
        | some d => exact List.reduceOption_cons_of_some d _
      rw [lines_cons hc, ih (line_ok hc erased l.1 l.2).2, diagnostics_line, store_line, hreports,
        List.append_assoc]

theorem parsed_lines (ls : List (Bytes × UInt32)) :
    ∀ {c : Conversion}, c.store.Navigable →
      (c.lines erased ls).2.stats.parsed
        = c.stats.parsed
          + ((verdicts erased c.store ls).map Verdict.records).countP (·.length = 2) := by
  induction ls with
  | nil => intro c _; rfl
  | cons l ls ih =>
      intro c hc
      rw [lines_cons hc, ih (line_ok hc erased l.1 l.2).2, stats_line, store_line, Stats.parsed_count,
        verdicts, List.map_cons, List.countP_cons]
      simp only [decide_eq_true_eq]
      omega

/-! ## §4. The books balance. -/

/-- The counts agree with each other, with what was reported and with what
was recorded. -/
structure Balanced (c : Conversion) : Prop where
  lines_eq : c.stats.lines
    = c.stats.parsed + c.stats.invalid + c.stats.parseErrors + c.stats.malformed
  warnings_eq : c.warnings = c.stats.invalid
  errors_eq : c.errors = c.stats.parseErrors + c.stats.malformed
  records_size : c.records.size = (c.stats.lines - c.stats.malformed) + c.stats.parsed

theorem balanced_of_store (s : Store) : ({ store := s } : Conversion).Balanced :=
  ⟨rfl, rfl, rfl, rfl⟩

theorem warnings_line (erased : Name → Bool) (c : Conversion) (text : Bytes)
    (number : UInt32) :
    (c.line erased text number).2.warnings
      = c.warnings + Diagnostic.count .warning
          ((judge erased c.store text number).1.diagnostic? number).toList := by
  unfold warnings
  rw [diagnostics_line, Diagnostic.count_append]

theorem errors_line (erased : Name → Bool) (c : Conversion) (text : Bytes)
    (number : UInt32) :
    (c.line erased text number).2.errors
      = c.errors + Diagnostic.count .error
          ((judge erased c.store text number).1.diagnostic? number).toList := by
  unfold errors
  rw [diagnostics_line, Diagnostic.count_append]

theorem records_size_line (erased : Name → Bool) (c : Conversion) (text : Bytes)
    (number : UInt32) :
    (c.line erased text number).2.records.size
      = c.records.size + (judge erased c.store text number).1.records.length := by
  rw [← Array.length_toList, records_line, List.length_append, Array.length_toList]

/-- **One line keeps the balance.** -/
theorem Balanced.line (hb : c.Balanced) (hc : c.store.Navigable) (text : Bytes)
    (number : UInt32) : (c.line erased text number).2.Balanced := by
  obtain ⟨hlines, hwarnings, herrors, hrecords⟩ := hb
  have hfits := (judge_fits hc erased text number).1
  constructor
  -- in each equation both sides gain what the verdict adds to them
  all_goals
    simp only [stats_line, warnings_line, errors_line, records_size_line, hwarnings, herrors,
      hrecords]
    generalize (judge erased c.store text number).1 = v at hfits
    cases hfits <;>
      simp [Stats.count, Verdict.records, Verdict.diagnostic?, Diagnostic.count] <;> omega

/-- **The books balance after any lines.** -/
theorem Balanced.lines (ls : List (Bytes × UInt32)) :
    ∀ {c : Conversion}, c.Balanced → c.store.Navigable →
      (c.lines erased ls).2.Balanced := by
  induction ls with
  | nil => intro c hb _; exact hb
  | cons l ls ih =>
      intro c hb hc
      rw [lines_cons hc]
      exact ih (hb.line hc l.1 l.2) (line_ok hc erased l.1 l.2).2

/-! ## §5. The numbers of a listing's lines. -/

theorem length_numberedLines (input : Input) :
    input.numberedLines.length = input.lines.length := by
  rw [← map_fst_numberedLines input, List.length_map]

/-- Lines are numbered from 1, if the numbers do not run out. -/
theorem toNat_snd_numberedLines (input : Input) (hsize : input.lines.length < UInt32.size)
    {k : Nat} (hk : k < input.numberedLines.length) :
    input.numberedLines[k].2.toNat = k + 1 := by
  rw [length_numberedLines] at hk
  have hfits : 1 + k < UInt32.size := by omega
  have hnumber : input.numberedLines[k].2 = UInt32.ofNat (1 + k) := by
    simp [Input.numberedLines]
  rw [hnumber, UInt32.toNat_ofNat_of_lt' hfits, Nat.add_comm]

theorem pairwise_lt_numbers (input : Input) (hsize : input.lines.length < UInt32.size) :
    (input.numberedLines.map Prod.snd).Pairwise (· < ·) := by
  rw [List.pairwise_map, List.pairwise_iff_getElem]
  intro i j hi hj hij
  rw [UInt32.lt_iff_toNat_lt, toNat_snd_numberedLines input hsize hi,
    toNat_snd_numberedLines input hsize hj]
  exact Nat.succ_lt_succ hij

/-- A listing leaves what its lines leave, whether or not its reading broke
off. -/
theorem listing_snd (erased : Name → Bool) (c : Conversion) (input : Input) :
    (c.listing erased input).2 = (c.lines erased input.numberedLines).2 := by
  unfold listing
  split
  · next h => rw [h]
  · next h => rw [h]

/-- What a listing adds to the diagnostics, line by line: for each line one
of them or none, under the number of the line. -/
structure Reported (erased : Name → Bool) (c : Conversion) (input : Input)
    (reports : List (Option Diagnostic)) : Prop where
  length_eq : reports.length = input.lines.length
  after_take : ∀ k : Nat,
    (c.lines erased (input.numberedLines.take k)).2.diagnostics.toList
      = c.diagnostics.toList ++ (reports.take k).reduceOption
  after_listing : (c.listing erased input).2.diagnostics.toList
    = c.diagnostics.toList ++ reports.reduceOption
  line_eq : ∀ (k : Nat) (d : Diagnostic), reports[k]? = some (some d) → d.line.toNat = k + 1
  increasing : (reports.reduceOption.map Diagnostic.line).Pairwise (· < ·)

/-- **Each line of a listing is reported on at most once**, under its own
number. -/
theorem reported_verdicts (hc : c.store.Navigable) (input : Input)
    (hsize : input.lines.length < UInt32.size) :
    c.Reported erased input
      (reports input.numberedLines (verdicts erased c.store input.numberedLines)) where
  length_eq := by
    unfold reports
    rw [List.length_zipWith, length_verdicts, Nat.min_self, length_numberedLines]
  after_take := by
    intro k
    rw [diagnostics_lines _ hc, verdicts_take]
    unfold reports
    rw [List.take_zipWith]
  after_listing := by rw [listing_snd, diagnostics_lines _ hc]
  line_eq := by
    intro k d hreport
    unfold reports at hreport
    rw [List.getElem?_zipWith_eq_some] at hreport
    obtain ⟨l, v, hl, -, hreport⟩ := hreport
    obtain ⟨hk, rfl⟩ := List.getElem?_eq_some_iff.1 hl
    rw [line_of_diagnostic? hreport]
    exact toNat_snd_numberedLines input hsize hk
  increasing := (pairwise_lt_numbers input hsize).sublist (lines_reports_sublist _ _)

/-! ## §6. Any number of calls. -/

/-- What a conversion can be asked for: to convert one line under any
number, or a listing. -/
inductive Call where
  | line (text : Bytes) (number : UInt32)
  | listing (input : Input)
  deriving DecidableEq, Repr

/-- The lines that are converted in a call. -/
def Call.lines : Call → List (Bytes × UInt32)
  | .line text number => [(text, number)]
  | .listing input => input.numberedLines

/-- The conversion after a call, also after one that failed. -/
def call (erased : Name → Bool) (c : Conversion) : Call → Conversion
  | .line text number => (c.line erased text number).2
  | .listing input => (c.listing erased input).2

/-- The conversion after calls, one after another. -/
def callAll (erased : Name → Bool) (c : Conversion) (calls : List Call) : Conversion :=
  calls.foldl (call erased) c

theorem call_eq_lines (hc : c.store.Navigable) (k : Call) :
    c.call erased k = (c.lines erased k.lines).2 := by
  cases k with
  | line text number =>
      unfold Call.lines
      rw [lines_cons hc]
      rfl
  | listing input => exact listing_snd erased c input

/-- **Calls convert lines**, and it does not matter how the lines were
handed over. -/
theorem callAll_eq_lines (calls : List Call) :
    ∀ {c : Conversion}, c.store.Navigable →
      c.callAll erased calls = (c.lines erased (calls.flatMap Call.lines)).2 := by
  induction calls with
  | nil => intro c _; rfl
  | cons k calls ih =>
      intro c hc
      have hnav := (lines_ok erased k.lines hc).2
      unfold callAll at ih ⊢
      rw [List.foldl_cons, call_eq_lines hc, ih hnav, List.flatMap_cons, lines_append_eq hc]

/-- **The books of a conversion.**  After any calls the counts balance, also
with the numbers of warnings and errors and with the number of records.  The
records are a block for each line, and the parsed lines are those whose
block has two records.  And of the lines of one more listing each is
reported on at most once, under its number in the listing. -/
theorem accounting {s : Store} (hs : s.WellFormed) (types : TypeTable) (calls : List Call)
    {c : Conversion} (hcalls : c = ({ store := s } : Conversion).callAll types.erases calls) :
    c.Balanced
      ∧ (∃ blocks : List (List Record),
          List.Forall₂ BlockOf ((calls.flatMap Call.lines).map Prod.fst) blocks
            ∧ c.records.toList = blocks.flatten
            ∧ c.stats.parsed = blocks.countP (·.length = 2))
      ∧ ∀ input : Input, input.lines.length < UInt32.size →
          ∃ reports, c.Reported types.erases input reports := by
  have hstart : ({ store := s } : Conversion).store.Navigable := hs.navigable
  obtain rfl := hcalls.trans (callAll_eq_lines calls hstart)
  have hnav := (lines_ok types.erases (calls.flatMap Call.lines) hstart).2
  refine ⟨(balanced_of_store s).lines _ hstart, ⟨_, ?_, records_lines _ hstart, ?_⟩, ?_⟩
  · rw [List.forall₂_map_right_iff]
    exact (verdicts_fit types.erases _ hs.navigable).imp fun _ _ h => h.blockOf
  · rw [parsed_lines _ hstart]
    exact Nat.zero_add _
  · intro input hsize
    exact ⟨_, reported_verdicts hnav input hsize⟩

/-- A line of each kind, in a call of its own and in a listing whose reading
breaks off in its last line. -/
theorem accounting_interrupted :
    ∃ c : Conversion,
      c = ({ store := .empty } : Conversion).callAll TypeTable.empty.erases
          [.line "a.c: A || !B" 7,
            .listing ⟨"\nb.c: InvalidExpression()\nno file\nc.c: (A\nd.c: B", true⟩]
        ∧ c.stats = ⟨4, 1, 1, 1, 1⟩
        ∧ c.Balanced
        ∧ ∃ reports, c.Reported TypeTable.empty.erases ⟨"no file\n\nno file", false⟩ reports := by
  obtain ⟨hbalanced, -, hreported⟩ :=
    accounting Store.wellFormed_empty TypeTable.empty
      [.line "a.c: A || !B" 7,
        .listing ⟨"\nb.c: InvalidExpression()\nno file\nc.c: (A\nd.c: B", true⟩] rfl
  exact ⟨_, rfl, by decide +kernel, hbalanced, hreported _ (by decide +kernel)⟩

end Conversion

end PresenceTable
