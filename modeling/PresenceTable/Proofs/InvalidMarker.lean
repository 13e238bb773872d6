/-
  PresenceTable.Proofs.InvalidMarker
  ──────────────────────────────────
  **THE MARKER HIDES NOTHING.**

  A condition that is marked as invalid is not read at all: its bytes are
  searched for the marker before any of them is taken for a symbol.  This
  would go wrong if the marker could stand in a condition that can be used.
  It can not, for its last two bytes.  Wherever they stand, with any bytes
  around them, they are cut off as the two symbols of an empty pair of
  parentheses, and no sentence has one.

  So a conversion that did not look for the marker would refuse the same
  conditions, record the same, and report an error for the warning.

  Main results:
    * `Cut.exists_behind` — a text is cut in two at a byte that is a symbol
      by itself;
    * `Derives.not_infix_parentheses` — no sentence has empty parentheses;
    * `not_spelledBy_of_marker` — what is marked can not be read;
    * `Conversion.line_regardless` — a line with and without the search.
-/
import PresenceTable.Proofs.Accounting
import PresenceTable.Proofs.Token.Tiling

namespace PresenceTable

/-! ## §1. Bytes that are symbols by themselves. -/

/-- The byte is a symbol by itself, whatever follows it. -/
structure Symbol.IsSign (b : UInt8) (sign : Symbol) : Prop where
  isSpace : Bytes.isSpace b = false
  isWord : Bytes.isWord b = false
  scan : ∀ rest : Bytes, Symbol.scan b rest = .ok sign

theorem Symbol.isSign_opening : IsSign '('.toUInt8 .opening := ⟨by decide, by decide, fun _ => rfl⟩

theorem Symbol.isSign_closing : IsSign ')'.toUInt8 .closing := ⟨by decide, by decide, fun _ => rfl⟩

theorem Symbol.IsSign.text_eq {b : UInt8} {sign : Symbol} (h : IsSign b sign) :
    sign.text = [b] := by
  obtain ⟨after, hcut, -⟩ := exists_after_of_scan (h.scan [])
  obtain ⟨c, cs, htext⟩ := List.exists_cons_of_ne_nil sign.text_ne_nil
  rw [htext, List.cons_append] at hcut
  obtain ⟨rfl, hnil⟩ := List.cons.inj hcut
  rw [htext, (List.append_eq_nil_iff.1 hnil.symm).1]

/-- It stands in no other symbol. -/
theorem Symbol.IsSign.eq_of_mem {b : UInt8} {sign symbol : Symbol} (h : IsSign b sign)
    {after : Bytes} (hends : symbol.EndsBefore after) (hb : b ∈ symbol.text) : symbol = sign := by
  cases symbol with
  | name n =>
      have hword := hends.1 b hb
      rw [h.isWord] at hword
      cases hword
  | bang | opening | closing =>
      cases List.mem_singleton.1 hb
      exact Except.ok.inj (h.scan [])
  | and | or =>
      -- the bytes of these stand in pairs, so one of them alone is no symbol
      rcases List.mem_pair.1 hb with rfl | rfl <;> cases h.scan []

theorem Symbol.IsSign.not_mem_space {b : UInt8} {sign : Symbol} (h : IsSign b sign) {space : Bytes}
    (hspace : ∀ c ∈ space, Bytes.isSpace c = true) : b ∉ space := by
  intro hb
  have hspaceb := hspace b hb
  rw [h.isSpace] at hspaceb
  cases hspaceb

namespace Cut

theorem exists_of_append_eq {b : UInt8} {front rest before after : Bytes} (hb : b ∉ front)
    (h : front ++ rest = before ++ b :: after) :
    ∃ between, before = front ++ between ∧ rest = between ++ b :: after := by
  rcases List.append_eq_append_iff.1 h with ⟨between, hbefore, hrest⟩ | ⟨between, hfront, hrest⟩
  · exact ⟨between, hbefore, hrest⟩
  · cases between with
    | nil => exact ⟨[], by simpa using hfront.symm, hrest.symm⟩
    | cons c between =>
        obtain ⟨rfl, -⟩ := List.cons.inj hrest
        exact absurd (by rw [hfront]; simp) hb

variable {b : UInt8} {sign : Symbol} {offset final : Nat} {text : Bytes}
  {symbols : List PlacedSymbol} {reason : Option SyntaxError.Reason}

/-- **A text is cut in two in front of a byte that is a symbol by itself**,
wherever the byte stands. -/
theorem exists_behind (hsign : sign.IsSign b) (h : Cut offset text symbols final reason) :
    reason = none → ∀ {before after : Bytes}, text = before ++ b :: after →
      ∃ front later, symbols = front ++ later
        ∧ Cut (offset + before.length) (b :: after) later final none := by
  induction h with
  | endOfText hspace =>
      intro _ before after htext
      exact absurd (by rw [htext]; simp) (hsign.not_mem_space hspace)
  | failure => intro hreason; cases hreason
  | @symbol offset space symbol rest later final reason hspace hends hlater ih =>
      rintro rfl before after htext
      obtain ⟨between, rfl, hrest⟩ := exists_of_append_eq (hsign.not_mem_space hspace) htext
      by_cases hmem : b ∈ symbol.text
      · obtain rfl := hsign.eq_of_mem hends hmem
        have hfirst : Cut (offset + space.length) ([] ++ (symbol.text ++ rest))
            (⟨offset + space.length, symbol⟩ :: later) final none := .symbol nofun hends hlater
        rw [hsign.text_eq] at hrest hfirst ih
        rcases List.cons_eq_append_iff.1 hrest with ⟨rfl, hafter⟩ | ⟨between, rfl, hafter⟩
        · -- the byte is the first symbol
          rw [List.append_nil, hafter]
          exact ⟨[], _, rfl, hfirst⟩
        · obtain ⟨front, later', rfl, hcut⟩ := ih rfl hafter
          refine ⟨_ :: front, later', rfl, ?_⟩
          simpa [Nat.add_assoc, Nat.add_comm 1] using hcut
      · obtain ⟨between', rfl, hafter⟩ := exists_of_append_eq hmem hrest
        obtain ⟨front, later', rfl, hcut⟩ := ih rfl hafter
        refine ⟨_ :: front, later', rfl, ?_⟩
        simpa [Nat.add_assoc] using hcut

/-- The byte is the first symbol of what begins with it. -/
theorem of_sign (hsign : sign.IsSign b) {after : Bytes}
    (h : Cut offset (b :: after) symbols final none) :
    ∃ later, symbols = ⟨offset, sign⟩ :: later ∧ Cut (offset + 1) after later final none := by
  generalize htext : b :: after = text at h
  generalize hreason : none = reason at h
  cases h with
  | endOfText hspace => exact absurd (by rw [← htext]; simp) (hsign.not_mem_space hspace)
  | failure => cases hreason
  | @symbol _ space symbol rest later _ _ hspace hends hlater =>
      obtain ⟨c, cs, hcs⟩ := List.exists_cons_of_ne_nil symbol.text_ne_nil
      have hspace' : space = [] := by
        cases space with
        | nil => rfl
        | cons c space =>
            obtain ⟨rfl, -⟩ := List.cons.inj htext
            exact absurd List.mem_cons_self (hsign.not_mem_space hspace)
      subst hspace'
      rw [hcs] at htext
      obtain ⟨rfl, hafter⟩ := List.cons.inj htext
      obtain rfl := hsign.eq_of_mem hends (by rw [hcs]; simp)
      rw [hsign.text_eq] at hlater hcs
      obtain ⟨-, rfl⟩ := List.cons.inj hcs
      subst hafter hreason
      exact ⟨later, rfl, hlater⟩

end Cut

/-! ## §2. Empty parentheses. -/

/-- Behind an opening parenthesis an operand is wanted, and a closing one is
none. -/
theorem Reading.not_takes_closing {reading inside after : Reading Formula}
    (h : Takes reading .opening inside) : ¬ Takes inside .closing after := by
  intro hclosing
  cases h
  cases hclosing

theorem Reading.exists_of_feed_append {reading after : Reading Formula} {tokens later : List Token}
    (h : reading.feed (tokens ++ later) = .ok after) :
    ∃ between, reading.feed tokens = .ok between ∧ between.feed later = .ok after := by
  rw [feed_append] at h
  cases hfeed : reading.feed tokens with
  | error refusal => rw [hfeed] at h; cases h
  | ok between =>
      rw [hfeed] at h
      exact ⟨between, rfl, h⟩

theorem Reading.exists_of_feed_cons {reading after : Reading Formula} {t : Token}
    {later : List Token}
    (h : reading.feed (t :: later) = .ok after) :
    ∃ between, Takes reading t.symbol between ∧ between.feed later = .ok after := by
  rw [feed_cons] at h
  cases hstep : reading.step t with
  | error refusal => rw [hstep] at h; cases h
  | ok between =>
      rw [hstep] at h
      exact ⟨between, step_eq_ok_iff.1 hstep, h⟩

/-- **No sentence has empty parentheses.** -/
theorem Derives.not_infix_parentheses {word : List Symbol} {f : Formula}
    (h : Derives .disjunction word f) : ¬ [.opening, .closing] <:+: word := by
  rintro ⟨front, back, rfl⟩
  -- the reader takes the sentence, so it takes each of its symbols in turn
  obtain ⟨disjunct, operand, hfeed, -⟩ :=
    h.reads _ (map_symbol_placed _ ⟨0, 0⟩) []
  rw [List.append_assoc, List.map_append] at hfeed
  obtain ⟨reading, -, hfeed⟩ := Reading.exists_of_feed_append hfeed
  obtain ⟨inside, hopening, hfeed⟩ := Reading.exists_of_feed_cons hfeed
  obtain ⟨after, hclosing, -⟩ := Reading.exists_of_feed_cons hfeed
  exact Reading.not_takes_closing hopening hclosing

/-! ## §3. Marked conditions. -/

theorem invalidMarker_eq :
    invalidMarker = Bytes.ofString "InvalidExpression" ++ ['('.toUInt8, ')'.toUInt8] := by
  decide

/-- **What is marked can not be read**, wherever the marker stands in it. -/
theorem not_spelledBy_of_marker {text : Bytes} (h : invalidMarker <:+: text) (f : Formula) :
    ¬ f.SpelledBy text := by
  rintro ⟨⟨position, hstop⟩, hderives⟩
  obtain ⟨before, after, rfl⟩ := h
  obtain ⟨symbols, final, reason, hcut⟩ := exists_cut (before ++ invalidMarker ++ after) 0
  rw [hcut.ofText_eq] at hstop hderives
  have hreason : reason = none := by
    cases reason with
    | none => rfl
    | some reason => cases hstop
  subst hreason
  have htext : before ++ invalidMarker ++ after
      = (before ++ Bytes.ofString "InvalidExpression")
        ++ '('.toUInt8 :: ')'.toUInt8 :: after := by
    rw [invalidMarker_eq]
    simp
  obtain ⟨front, symbols, rfl, hopening⟩ := hcut.exists_behind Symbol.isSign_opening rfl htext
  obtain ⟨symbols, rfl, hclosing⟩ := hopening.of_sign Symbol.isSign_opening
  obtain ⟨later, rfl, -⟩ := hclosing.of_sign Symbol.isSign_closing
  refine hderives.not_infix_parentheses
    ⟨front.map fun p => p.symbol, later.map fun p => p.symbol, ?_⟩
  simp [PlacedSymbol.token, Function.comp_def]

/-! ## §4. Lines without the search. -/

/-- The verdict on a line, with no regard to the marker of invalid
conditions. -/
def judgeRegardless (erased : Name → Bool) (s : Store) (text : Bytes) (line : UInt32) :
    Verdict × Store :=
  match ListingLine.ofText text with
  | .blank => (.blank, s)
  | .malformed => (.malformed text, s)
  | .entry path condition => judgeCondition erased s path condition line

namespace Conversion

/-- The conversion after a verdict on a line, and whether it can go on. -/
def conclude (c : Conversion) (number : UInt32) :
    Verdict × Store → Except Fault Unit × Conversion
  | (v, store) =>
    (match v.fault? with
      | none => .ok ()
      | some fault => .error fault,
    { store
      stats := c.stats.count v
      records := c.records ++ v.records
      diagnostics := c.diagnostics ++ (v.diagnostic? number).toList })

theorem line_eq_conclude (erased : Name → Bool) (c : Conversion) (text : Bytes)
    (number : UInt32) :
    c.line erased text number = c.conclude number (judge erased c.store text number) :=
  Prod.ext (line_fst erased c text number) (line_snd erased c text number)

/-- Convert one line, with no regard to the marker of invalid conditions. -/
def lineRegardless (erased : Name → Bool) (c : Conversion) (text : Bytes) (number : UInt32) :
    Except Fault Unit × Conversion :=
  c.conclude number (judgeRegardless erased c.store text number)

variable {text path condition : Bytes}

theorem line_eq_lineRegardless (erased : Name → Bool) (c : Conversion) (number : UInt32)
    (h : ¬ ∃ path condition, ListingLine.Gives text path condition
      ∧ invalidMarker <:+: condition) :
    c.line erased text number = c.lineRegardless erased text number := by
  rw [line_eq_conclude, lineRegardless]
  congr 1
  unfold judge judgeRegardless
  cases htext : ListingLine.ofText text with
  | blank | malformed => rfl
  | entry path condition =>
      have hgives := ListingLine.ofText_eq_entry_iff_gives.1 htext
      dsimp only
      rw [if_neg]
      rw [Bytes.occursIn_iff]
      exact fun hmarker => h ⟨path, condition, hgives, hmarker⟩

/-- A marked line with the search: a warning, and a count. -/
theorem line_of_marker (erased : Name → Bool) (c : Conversion) (number : UInt32)
    (hgives : ListingLine.Gives text path condition) (hmarker : invalidMarker <:+: condition) :
    c.line erased text number = c.conclude number (.invalid path, c.store) := by
  rw [line_eq_conclude]
  congr 1
  unfold judge
  rw [ListingLine.ofText_eq_entry_iff_gives.2 hgives]
  exact if_pos ((Bytes.occursIn_iff _ _).2 hmarker)

/-- A marked line without the search: its condition is read, and refused. -/
theorem lineRegardless_of_marker (erased : Name → Bool) (c : Conversion) (number : UInt32)
    (hgives : ListingLine.Gives text path condition) (hmarker : invalidMarker <:+: condition) :
    ∃ error, c.lineRegardless erased text number
      = c.conclude number
          (.unreadable path condition error, (c.store.read condition number).2) := by
  obtain ⟨error, herror⟩ := Store.read_of_not_spelledBy
    (fun ⟨f, hf⟩ => not_spelledBy_of_marker hmarker f hf) c.store number
  refine ⟨error, ?_⟩
  unfold lineRegardless judgeRegardless
  rw [ListingLine.ofText_eq_entry_iff_gives.2 hgives]
  dsimp only
  congr 1
  unfold judgeCondition
  rcases hread : c.store.read condition number with ⟨answer, t⟩
  rw [hread] at herror
  cases herror
  rfl

/-- What the search makes of a marked line: a warning instead of an error,
and a store without the nodes that the reading would leave. -/
structure Spared (c : Conversion) (path condition : Bytes) (number : UInt32)
    (found regardless : Conversion) : Prop where
  warned : ∃ warning : Diagnostic, warning.severity = .warning
    ∧ warning.path = path ∧ warning.line = number
    ∧ found = {
        store := c.store
        stats := { c.stats with lines := c.stats.lines + 1, invalid := c.stats.invalid + 1 }
        records := c.records.push (path, Store.botId)
        diagnostics := c.diagnostics.push warning }
  refused : ∃ error : Diagnostic, error.severity = .error
    ∧ error.path = path ∧ error.line = number
    ∧ regardless = {
        store := (c.store.read condition number).2
        stats := { c.stats with
          lines := c.stats.lines + 1, parseErrors := c.stats.parseErrors + 1 }
        records := c.records.push (path, Store.botId)
        diagnostics := c.diagnostics.push error }

/-- **The search for the marker hides nothing.**  Wherever the marker stands
in a text, no store can read the text.  So a conversion with the search and
one without it give the same answer to a line, record the same for it, and
have the same model after it.  They differ on marked lines only, and there
the search makes a warning of an error, counts the line as invalid instead
of unreadable, and leaves the store as it is. -/
theorem line_regardless :
    (∀ text : Bytes, invalidMarker <:+: text → ∀ (s : Store) (line : UInt32),
        ∃ error : SyntaxError, (s.read text line).1 = .error error)
      ∧ ∀ (types : TypeTable) (c : Conversion) (text : Bytes) (number : UInt32),
          (c.line types.erases text number).1 = (c.lineRegardless types.erases text number).1
            ∧ (∃ emitted : List Record,
                (c.line types.erases text number).2.records.toList
                    = c.records.toList ++ emitted
                  ∧ (c.lineRegardless types.erases text number).2.records.toList
                    = c.records.toList ++ emitted)
            ∧ (c.line types.erases text number).2.model
                = (c.lineRegardless types.erases text number).2.model
            ∧ ((¬ ∃ path condition, ListingLine.Gives text path condition
                  ∧ invalidMarker <:+: condition) →
                c.line types.erases text number = c.lineRegardless types.erases text number)
            ∧ ∀ path condition, ListingLine.Gives text path condition →
                invalidMarker <:+: condition →
                Spared c path condition number (c.line types.erases text number).2
                  (c.lineRegardless types.erases text number).2 := by
  constructor
  · intro text hmarker s line
    exact Store.read_of_not_spelledBy
      (fun ⟨f, hf⟩ => not_spelledBy_of_marker hmarker f hf) s line
  intro types c text number
  by_cases h : ∃ path condition, ListingLine.Gives text path condition
    ∧ invalidMarker <:+: condition
  · obtain ⟨path, condition, hgives, hmarker⟩ := h
    have hfound := line_of_marker types.erases c number hgives hmarker
    obtain ⟨error, hregardless⟩ :=
      lineRegardless_of_marker types.erases c number hgives hmarker
    have hrecords : (c.line types.erases text number).2.records
        = (c.lineRegardless types.erases text number).2.records := by
      rw [hfound, hregardless]
      rfl
    refine ⟨by rw [hfound, hregardless]; rfl, ⟨_, records_line _ _ _ _, ?_⟩, ?_, ?_, ?_⟩
    · rw [← hrecords, records_line]
    · unfold model
      rw [hrecords]
    · exact fun hnone => absurd ⟨path, condition, hgives, hmarker⟩ hnone
    · intro path' condition' hgives' _
      -- the line gives one file only
      obtain ⟨rfl, rfl⟩ := ListingLine.entry.inj
        ((ListingLine.ofText_eq_entry_iff_gives.2 hgives).symm.trans
          (ListingLine.ofText_eq_entry_iff_gives.2 hgives'))
      constructor
      · exact ⟨_, rfl, rfl, rfl, congrArg Prod.snd hfound⟩
      · exact ⟨_, rfl, rfl, rfl, congrArg Prod.snd hregardless⟩
  · have heq := line_eq_lineRegardless types.erases c number h
    rw [← heq]
    refine ⟨rfl, ⟨_, records_line _ _ _ _, records_line _ _ _ _⟩, rfl, fun _ => rfl, ?_⟩
    exact fun path condition hgives hmarker => absurd ⟨path, condition, hgives, hmarker⟩ h

/-- A name is glued to the front of the marker, which stands between
parentheses and in front of another operand.  Without the search two nodes
are left by what was read before it. -/
theorem line_regardless_glued :
    ∃ c : Conversion,
      c = (start.line TypeTable.empty.erases "a.c: A || B" 1).2
        ∧ c.store.size = 4
        ∧ Spared c "b.c" "(A && xInvalidExpression() || C" 2
            (c.line TypeTable.empty.erases "b.c: (A && xInvalidExpression() || C" 2).2
            (c.lineRegardless TypeTable.empty.erases "b.c: (A && xInvalidExpression() || C" 2).2
        ∧ (c.lineRegardless TypeTable.empty.erases "b.c: (A && xInvalidExpression() || C"
            2).2.store.size = 6 := by
  obtain ⟨-, -, -, -, hspared⟩ := line_regardless.2 TypeTable.empty
    (start.line TypeTable.empty.erases "a.c: A || B" 1).2
    "b.c: (A && xInvalidExpression() || C" 2
  refine ⟨_, rfl, by decide +kernel, hspared _ _ ?_ ?_, by decide +kernel⟩
  · rw [← ListingLine.ofText_eq_entry_iff_gives]
    decide +kernel
  · rw [← Bytes.occursIn_iff]
    decide +kernel

end Conversion

end PresenceTable
