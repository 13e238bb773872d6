/-
  PresenceTable.Proofs.Erasure
  ────────────────────────────
  **WHAT A CONVERSION READS OF THE TYPES.**

  A conversion asks a table of types nothing but whether a name is erased,
  and it asks this of the names in the conditions that it reads.  Two tables
  may differ in everything else: in the types by which they erase a variable,
  in variables whose module variable stands in no condition, though they may
  stand there themselves, and in whether what is not erased is declared.

  That the trees are the same after elimination is not enough.  An id also
  counts what was stored in passing, such as a disjunction whose operand
  turned out to be constant.  So two runs are compared stage by stage,

      s.addAll (f.stages erased) = s.addAll (f.stages erased')

  and an id of one tree in one store is one id.

  Main results:
    * `SpelledBy.occursIn` — the variables of a condition stand in its text;
    * `Store.WellFormed.eliminate_congr` — one elimination;
    * `Conversion.lines_congr` — one line, and then any number of them;
    * `Conversion.listing_congr` — two tables, and a whole listing.
-/
import PresenceTable.Proofs.Cutting
import PresenceTable.Proofs.Formula.Printing
import PresenceTable.Proofs.Repetition
import PresenceTable.Proofs.Token.Tiling

namespace PresenceTable

/-! ## §1. Names in a text. -/

/-- The name stands in the text as a whole: it is made of word bytes, and the
bytes beside it are none. -/
def Name.OccursIn (n : Name) (text : Bytes) : Prop :=
  n.IsWord ∧ ∃ before after : Bytes, text = before ++ (n.val ++ after)
    ∧ (∀ b ∈ before.getLast?, Bytes.isWord b = false)
    ∧ ∀ b ∈ after.head?, Bytes.isWord b = false

/-- A name that occurs is one of the runs of word bytes. -/
theorem Name.OccursIn.mem_split {n : Name} {text : Bytes} (h : n.OccursIn text) :
    n.val ∈ Bytes.split (! Bytes.isWord ·) text := by
  obtain ⟨hword, before, after, rfl, hbefore, hafter⟩ := h
  refine Bytes.mem_split_of_bounded (fun b hb => ?_) (fun b hb => ?_) fun b hb => ?_
  · rw [hword b hb]; rfl
  · rw [hbefore b hb]; rfl
  · rw [hafter b hb]; rfl

/-- **The variables of a condition** stand in its text. -/
theorem Formula.SpelledBy.occursIn {f : Formula} {text : Bytes} (h : f.SpelledBy text) :
    ∀ n ∈ f.names, n.OccursIn text := by
  intro n hn
  obtain ⟨symbols, final, reason, hcut⟩ := exists_cut text 0
  -- the variable is one of the symbols into which the text is cut
  have hsymbol := h.2.name_mem n hn
  rw [hcut.ofText_eq 1, List.map_map] at hsymbol
  obtain ⟨p, hp, hname⟩ := List.mem_map.1 hsymbol
  obtain ⟨before, after, htext, -, hends, hbefore⟩ := hcut.standsIn_text p hp
  have hname : p.symbol = .name n := hname
  rw [hname] at htext hends
  exact ⟨hends.1, before, after, htext, hbefore n hname, hends.2⟩

/-! ## §2. One condition. -/

namespace Formula

variable {erased erased' : Name → Bool}

theorem eliminate_congr {f : Formula} (h : ∀ n ∈ f.names, erased n = erased' n) :
    f.eliminate erased = f.eliminate erased' := by
  induction f with
  | bot => rfl
  | var n => rw [eliminate, eliminate, h n (List.mem_singleton_self n)]
  | neg f ih => exact ih h
  | conj f g ihf ihg | disj f g ihf ihg =>
      rw [eliminate, eliminate, ihf fun n hn => h n (List.mem_append_left _ hn),
        ihg fun n hn => h n (List.mem_append_right _ hn)]

/-- What is put together on the way depends on the same names. -/
theorem stages_congr {f : Formula} (h : ∀ n ∈ f.names, erased n = erased' n) :
    f.stages erased = f.stages erased' := by
  induction f with
  | bot | var n => rfl
  | neg f ih => exact ih h
  | conj f g ihf ihg | disj f g ihf ihg =>
      have hf : ∀ n ∈ f.names, erased n = erased' n :=
        fun n hn => h n (List.mem_append_left _ hn)
      have hg : ∀ n ∈ g.names, erased n = erased' n :=
        fun n hn => h n (List.mem_append_right _ hn)
      rw [stages, stages, ihf hf, ihg hg, eliminate_congr hf, eliminate_congr hg]

end Formula

/-- **An elimination** answers and stores the same when the same variables of
its condition are erased. -/
theorem Store.WellFormed.eliminate_congr {s : Store} (hs : s.WellFormed)
    {erased erased' : Name → Bool} {id : NodeId} {f : Formula} (hf : s.Denotes id f)
    (h : ∀ n ∈ f.names, erased n = erased' n)
    (hsize : (s.eliminate erased id).2.size ≤ UInt32.size) :
    s.eliminate erased id = s.eliminate erased' id := by
  have hsnd := hs.eliminate_snd hf (.inl hsize)
  -- there is room for the stages, so the other elimination stores them too
  have hsnd' : (s.eliminate erased' id).2 = s.addAll (f.stages erased') := by
    rw [hsnd, Formula.stages_congr h] at hsize
    exact hs.eliminate_snd hf (.inr hsize)
  have hstore : (s.eliminate erased id).2 = (s.eliminate erased' id).2 := by
    rw [hsnd, hsnd', Formula.stages_congr h]
  obtain ⟨i, hi, hwf, hdeni⟩ := hs.eliminate hf hsize
  obtain ⟨j, hj, -, hdenj⟩ := hs.eliminate hf (hstore ▸ hsize)
  -- in one store, one tree has one id
  rw [Formula.eliminate_congr h, hstore] at hdeni
  rw [hstore] at hwf
  have hid : i = j := hdeni.id_unique hwf.toConsistent hdenj
  exact Prod.ext (hi.trans (hid ▸ hj.symm)) hstore

/-! ## §3. Lines. -/

/-- The same names of the line's condition are erased. -/
def ErasesAlike (erased erased' : Name → Bool) (line : Bytes) : Prop :=
  ∀ path condition : Bytes, ListingLine.Gives line path condition →
    ∀ n : Name, n.OccursIn condition → erased n = erased' n

section

variable {erased erased' : Name → Bool}

theorem judgeCondition_congr {s : Store} (hs : s.WellFormed) {path condition : Bytes}
    {line : UInt32} (h : ∀ n : Name, n.OccursIn condition → erased n = erased' n)
    (hsize : (judgeCondition erased s path condition line).2.size ≤ UInt32.size) :
    judgeCondition erased s path condition line
      = judgeCondition erased' s path condition line := by
  rcases hread : s.read condition line with ⟨error | id, t⟩
  · unfold judgeCondition
    rw [hread]
  · rw [judgeCondition_of_read hread] at hsize
    rw [judgeCondition_of_read hread, judgeCondition_of_read hread]
    -- the condition that was read is eliminated in the store that holds it
    have hread' : (s.read condition line).2.size ≤ UInt32.size := by
      rw [hread]
      exact Nat.le_trans (Store.grows_eliminate t erased id).size_le hsize
    have ht := hs.read condition line hread'
    rw [hread] at ht hread'
    obtain ⟨f, hspelled, hden⟩ := hs.toConsistent.of_read_ok hread hread'
    have hnames : ∀ n ∈ f.names, erased n = erased' n :=
      fun n hn => h n (hspelled.occursIn n hn)
    rw [ht.eliminate_congr hden hnames hsize]

theorem judge_congr {s : Store} (hs : s.WellFormed) {text : Bytes} {line : UInt32}
    (h : ErasesAlike erased erased' text)
    (hsize : (judge erased s text line).2.size ≤ UInt32.size) :
    judge erased s text line = judge erased' s text line := by
  unfold judge at hsize ⊢
  cases htext : ListingLine.ofText text with
  | blank | malformed => rfl
  | entry path condition =>
      rw [htext] at hsize
      dsimp only at hsize ⊢
      cases hmarker : Bytes.occursIn invalidMarker condition with
      | true => rfl
      | false =>
          rw [hmarker] at hsize
          have hgives := ListingLine.ofText_eq_entry_iff_gives.1 htext
          exact judgeCondition_congr hs (h path condition hgives) hsize

namespace Conversion

theorem line_congr {c : Conversion} (hc : c.store.WellFormed) {text : Bytes} {number : UInt32}
    (h : ErasesAlike erased erased' text)
    (hsize : (c.line erased text number).2.store.size ≤ UInt32.size) :
    c.line erased text number = c.line erased' text number := by
  rw [store_line] at hsize
  have hjudge := judge_congr hc h hsize
  refine Prod.ext ?_ ?_
  · rw [line_fst, line_fst, hjudge]
  · rw [line_snd, line_snd, hjudge]

/-- **Any number of lines** are converted in the same way when the same names
of their conditions are erased. -/
theorem lines_congr (ls : List (Bytes × UInt32)) :
    ∀ {c : Conversion}, c.store.WellFormed → (∀ l ∈ ls, ErasesAlike erased erased' l.1) →
      (c.lines erased ls).2.store.size ≤ UInt32.size →
      c.lines erased ls = c.lines erased' ls := by
  induction ls with
  | nil => intro c _ _ _; rfl
  | cons l ls ih =>
      intro c hc h hsize
      obtain ⟨text, number⟩ := l
      have hnav := hc.navigable
      rw [lines_cons hnav] at hsize
      have hfirst : (c.line erased text number).2.store.size ≤ UInt32.size :=
        Nat.le_trans (grows_lines erased ls _).size_le hsize
      have hwf : (c.line erased text number).2.store.WellFormed := (remembers_line hc hfirst).1
      have hline := line_congr hc (h _ List.mem_cons_self) hfirst
      have hlater := ih hwf (fun l hl => h l (List.mem_cons_of_mem _ hl)) hsize
      rw [lines_cons hnav, lines_cons hnav, hlater, hline]

end Conversion

end

/-! ## §4. Tables. -/

namespace TypeTable

variable {t₁ t₂ : TypeTable}

/-- Whether a name is erased depends on its base. -/
theorem erases_congr {n : Name} (h : ∀ base : Name, n.val = base.val ++ moduleSuffix →
    (base.val ∈ t₁.erasedBases ↔ base.val ∈ t₂.erasedBases)) : t₁.erases n = t₂.erases n := by
  rw [Bool.eq_iff_iff, erases_eq_true_iff, erases_eq_true_iff, erases_iff_erasedBases,
    erases_iff_erasedBases]
  exact exists_congr fun base => and_congr_right fun hbase => h base hbase

theorem erases_of_erasedBases_eq (h : t₁.erasedBases = t₂.erasedBases) :
    t₁.erases = t₂.erases :=
  funext fun _ => erases_congr fun _ _ => by rw [h]

/-- To declare as `tristate` what was not declared erases nothing. -/
theorem erasedBases_declare_tristate {t : TypeTable} {name : Bytes}
    (h : t.typeOf? name = none) : (t.declare name tristate).erasedBases = t.erasedBases := by
  ext base
  show (∃ type, (t.declare name tristate).typeOf? base = some type ∧ type ≠ tristate)
    ↔ ∃ type, t.typeOf? base = some type ∧ type ≠ tristate
  rw [typeOf?_declare]
  by_cases hbase : name = base
  · rw [if_pos hbase, ← hbase, h]
    simp
  · rw [if_neg hbase]

/-- A base is erased by its type. -/
instance decidableMemErasedBases (t : TypeTable) (base : Bytes) :
    Decidable (base ∈ t.erasedBases) :=
  decidable_of_iff ((t.typeOf? base).any (· != tristate) = true) <| by
    show _ ↔ ∃ type, t.typeOf? base = some type ∧ type ≠ tristate
    rw [Option.any_eq_true]
    simp only [bne_iff_ne]

/-- As far as the module variables of a base occur in the conditions of the
text, the tables agree whether the base has another type than `tristate`. -/
def AgreeOn (t₁ t₂ : TypeTable) (input : Input) : Prop :=
  ∀ line ∈ input.lines, ∀ path condition : Bytes, ListingLine.Gives line path condition →
    ∀ n base : Name, n.OccursIn condition → n.val = base.val ++ moduleSuffix →
      (base.val ∈ t₁.erasedBases ↔ base.val ∈ t₂.erasedBases)

theorem AgreeOn.erasesAlike {input : Input} (h : AgreeOn t₁ t₂ input) :
    ∀ line ∈ input.lines, ErasesAlike t₁.erases t₂.erases line := by
  intro line hline path condition hgives n hn
  exact erases_congr fun base hbase => h line hline path condition hgives n base hn hbase

/-- Agreement can be checked run by run. -/
theorem agreeOn_of_forall_split {input : Input}
    (h : ∀ line ∈ input.lines, ∀ entry ∈ (ListingLine.ofText line).fileOf?,
      ∀ run ∈ Bytes.split (! Bytes.isWord ·) entry.2,
        (run.take (run.length - moduleSuffix.length) ∈ t₁.erasedBases
          ↔ run.take (run.length - moduleSuffix.length) ∈ t₂.erasedBases)) :
    AgreeOn t₁ t₂ input := by
  intro line hline path condition hgives n base hn hbase
  have hrun := h line hline _ (ListingLine.fileOf?_eq_some_iff_gives.2 hgives) n.val hn.mem_split
  have htake : n.val.take (n.val.length - moduleSuffix.length) = base.val := by
    rw [hbase, List.length_append, Nat.add_sub_cancel, List.take_left]
  rwa [htake] at hrun

end TypeTable

/-! ## §5. Listings. -/

namespace Conversion

/-- **A conversion depends on the types only through what it may erase.**
When two tables agree which bases have another type than `tristate`, as far
as their module variables occur in the conditions of a text, and there are ids
for all nodes of one conversion, the text is converted in the same way: with
the same answer, and to the same store, counts, records and diagnostics, and
so to the same table.  In particular it makes no difference which other type
than `tristate` is declared, nor whether a variable is declared to be
`tristate` or not at all. -/
theorem listing_congr (c : Conversion) (input : Input) :
    (∀ t₁ t₂ : TypeTable, c.store.WellFormed → t₁.AgreeOn t₂ input →
        (c.listing t₁.erases input).2.store.size ≤ UInt32.size →
        c.listing t₁.erases input = c.listing t₂.erases input)
    ∧ (∀ (t : TypeTable) (name type type' : Bytes),
        type ≠ TypeTable.tristate → type' ≠ TypeTable.tristate →
        c.listing (t.declare name type).erases input
          = c.listing (t.declare name type').erases input)
    ∧ ∀ (t : TypeTable) (name : Bytes), t.typeOf? name = none →
        c.listing (t.declare name TypeTable.tristate).erases input
          = c.listing t.erases input := by
  refine ⟨?_, ?_, ?_⟩
  · intro t₁ t₂ hc h hsize
    have hlines : c.lines t₁.erases input.numberedLines
        = c.lines t₂.erases input.numberedLines := by
      rw [listing_snd] at hsize
      refine lines_congr input.numberedLines hc ?_ hsize
      intro l hl
      have hline : l.1 ∈ input.lines := by
        rw [← map_fst_numberedLines]
        exact List.mem_map_of_mem hl
      exact h.erasesAlike l.1 hline
    unfold listing
    rw [hlines]
  · intro t name type type' htype htype'
    have hbases : (t.declare name type).erasedBases = (t.declare name type').erasedBases := by
      rw [t.erasedBases_declare name htype, t.erasedBases_declare name htype']
    rw [TypeTable.erases_of_erasedBases_eq hbases]
  · intro t name hname
    rw [TypeTable.erases_of_erasedBases_eq (TypeTable.erasedBases_declare_tristate hname)]

/-- Two tables that differ on `A`, `X` and `Z`, for a text in which `Z` stands
without its suffix, `X_MODULE` with another one, and one condition is refused,
after `Z_MODULE` was read into the store; and the types `bool` and `int`, and
`tristate`, behind a table that declares another variable. -/
theorem listing_congr_after_read :
    (∃ c : Conversion, c = { store := (Store.empty.read "Z_MODULE || Y" 1).2 }
      ∧ c.listing ((TypeTable.empty.declare "X" "bool").declare "Z" "int").erases
          ⟨"a.c: X_MODULE || A_MODULE && X_MODULE_MODULE\nb.c: Z || Y\nc.c: (A_MODULE", false⟩
        = c.listing ((TypeTable.empty.declare "A" "tristate").declare "X" "string").erases
          ⟨"a.c: X_MODULE || A_MODULE && X_MODULE_MODULE\nb.c: Z || Y\nc.c: (A_MODULE", false⟩)
    ∧ start.listing ((TypeTable.empty.declare "Y" "bool").declare "X" "bool").erases
          ⟨"a.c: X_MODULE || Y_MODULE", true⟩
        = start.listing ((TypeTable.empty.declare "Y" "bool").declare "X" "int").erases
          ⟨"a.c: X_MODULE || Y_MODULE", true⟩
    ∧ start.listing ((TypeTable.empty.declare "Y" "bool").declare "X" TypeTable.tristate).erases
          ⟨"a.c: X_MODULE || Y_MODULE", true⟩
        = start.listing (TypeTable.empty.declare "Y" "bool").erases
          ⟨"a.c: X_MODULE || Y_MODULE", true⟩ := by
  refine ⟨⟨_, rfl, ?_⟩, ?_, ?_⟩
  · have hread : (Store.empty.read "Z_MODULE || Y" 1).2.WellFormed :=
      Store.wellFormed_empty.read "Z_MODULE || Y" 1 (by decide +kernel)
    exact (listing_congr _ _).1 _ _ hread
      (TypeTable.agreeOn_of_forall_split (by decide +kernel)) (by decide +kernel)
  · exact (listing_congr _ _).2.1 _ "X" "bool" "int" (by decide) (by decide)
  · exact (listing_congr _ _).2.2 _ "X" (by decide +kernel)

end Conversion

end PresenceTable
