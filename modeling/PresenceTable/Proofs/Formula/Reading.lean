/-
  PresenceTable.Proofs.Formula.Reading
  ────────────────────────────────────
  **THE READER ACCEPTS THE GRAMMAR.**

  The reader takes one token after the other and never looks back; the
  grammar says how phrases are put together.  The two meet in what a
  reading stands for:

      reads a phrase   — the symbols of a derivation, taken one by one,
                         supply its tree to whatever wants an operand
      spells its past  — the pending operands of a reading and the signs
                         between them are the symbols taken so far

  The first says that the reader accepts every phrase, by induction on the
  derivation; the second that it accepts nothing else, by induction on the
  tokens.

  Main results:
    * `Derives.reads` — completeness, phrase by phrase;
    * `Reading.Takes.spells` — soundness, symbol by symbol;
    * `ofTokens_eq_ok_iff` — the reader and the grammar agree;
    * `Derives.unique` — a word has one tree at most;
    * `ofText_eq_ok_iff` — the same for texts, on any line;
    * `ofText_onLine` — what a refusal on another line has in common.
-/
import PresenceTable.Formula.Grammar
import PresenceTable.Formula.Reader
import PresenceTable.Proofs.Token.Cursor

namespace PresenceTable

/-! ## §1. Taking several tokens. -/

namespace Reading

/-- Read some more tokens. -/
def feed (reading : Reading Formula) (tokens : List Token) : Except Refusal (Reading Formula) :=
  tokens.foldlM step reading

theorem feed_nil (reading : Reading Formula) : reading.feed [] = .ok reading := rfl

theorem feed_cons (reading : Reading Formula) (t : Token) (tokens : List Token) :
    reading.feed (t :: tokens) = (reading.step t).bind (·.feed tokens) := rfl

theorem feed_append (reading : Reading Formula) (tokens later : List Token) :
    reading.feed (tokens ++ later) = (reading.feed tokens).bind (·.feed later) :=
  List.foldlM_append

theorem feed_append_of_ok {reading after : Reading Formula} {tokens : List Token}
    (h : reading.feed tokens = .ok after) (later : List Token) :
    reading.feed (tokens ++ later) = after.feed later := by
  rw [feed_append, h]
  rfl

theorem run_eq (reading : Reading Formula) (stream : TokenStream) :
    reading.run stream = (reading.feed stream.tokens).bind (·.finish stream.stop) := rfl

/-! ### The symbols that a reading can take. -/

/-- What a reading becomes by taking one more symbol. -/
inductive Takes : Reading Formula → Symbol → Reading Formula → Prop where
  | name (level : Level Formula) (enclosing : List (Level Formula)) (n : Name) :
      Takes (.wanting level enclosing) (.name n) (supply level (.var n) enclosing)
  | bang (level : Level Formula) (enclosing : List (Level Formula)) :
      Takes (.wanting level enclosing) .bang
        (.wanting { level with negations := level.negations + 1 } enclosing)
  | opening (level : Level Formula) (enclosing : List (Level Formula)) :
      Takes (.wanting level enclosing) .opening (.wanting {} (level :: enclosing))
  | and (disjunct : Option Formula) (operand : Formula) (enclosing : List (Level Formula)) :
      Takes (.having disjunct operand enclosing) .and
        (.wanting { disjunct, conjunct := some operand } enclosing)
  | or (disjunct : Option Formula) (operand : Formula) (enclosing : List (Level Formula)) :
      Takes (.having disjunct operand enclosing) .or
        (.wanting { disjunct := some (join disjunct operand) } enclosing)
  | closing (disjunct : Option Formula) (operand : Formula) (level : Level Formula)
      (enclosing : List (Level Formula)) :
      Takes (.having disjunct operand (level :: enclosing)) .closing
        (supply level (join disjunct operand) enclosing)

theorem step_eq_ok_iff {reading after : Reading Formula} {t : Token} :
    reading.step t = .ok after ↔ Takes reading t.symbol after := by
  obtain ⟨symbol, position⟩ := t
  constructor
  · intro h
    cases reading with
    | wanting level enclosing =>
        cases symbol <;> cases h <;> constructor
    | having disjunct operand enclosing =>
        cases symbol <;> cases enclosing <;> cases h <;> constructor
  · intro h
    cases h with
    | and | or => simp only [step]
    | _ => rfl

theorem feed_cons_of_takes {reading after : Reading Formula} {t : Token} {symbol : Symbol}
    (ht : t.symbol = symbol) (h : Takes reading symbol after) (tokens : List Token) :
    reading.feed (t :: tokens) = after.feed tokens := by
  rw [feed_cons, step_eq_ok_iff.2 (ht ▸ h)]
  rfl

end Reading

/-! ## §2. Every phrase is read. -/

open Reading

/-- What the symbols of a phrase do to a reading, one token each. -/
def Reads : Rank → List Symbol → Formula → Prop
  | .primary, word, f | .unary, word, f =>
      ∀ tokens : List Token, tokens.map Token.symbol = word →
        ∀ (level : Level Formula) (enclosing : List (Level Formula)),
          feed (.wanting level enclosing) tokens = .ok (supply level f enclosing)
  | .conjunction, word, f =>
      ∀ tokens : List Token, tokens.map Token.symbol = word →
        ∀ (disjunct : Option Formula) (enclosing : List (Level Formula)),
          feed (.wanting { disjunct } enclosing) tokens
            = .ok (.having disjunct f enclosing)
  | .disjunction, word, f =>
      ∀ tokens : List Token, tokens.map Token.symbol = word →
        ∀ enclosing : List (Level Formula), ∃ disjunct operand,
          feed (.wanting {} enclosing) tokens = .ok (.having disjunct operand enclosing)
            ∧ join disjunct operand = f

theorem repeat_neg_succ (n : Nat) (f : Formula) :
    (n + 1).repeat Formula.neg f = n.repeat Formula.neg (.neg f) := by
  induction n with
  | zero => rfl
  | succ n ih =>
      show Formula.neg ((n + 1).repeat Formula.neg f) = _
      rw [ih]
      rfl

/-- A negation sign in front of the operand is one that waits for it. -/
theorem supply_negations (level : Level Formula) (f : Formula) (enclosing : List (Level Formula)) :
    supply { level with negations := level.negations + 1 } f enclosing
      = supply level (.neg f) enclosing := by
  unfold supply Level.complete
  rw [repeat_neg_succ]

/-- **Every phrase is read, and supplies its tree.** -/
theorem Derives.reads {rank : Rank} {word : List Symbol} {f : Formula}
    (h : Derives rank word f) : Reads rank word f := by
  -- a phrase is read the same way in any surroundings, which `Reads` leaves open
  induction h with
  | name n =>
      intro tokens htokens level enclosing
      obtain ⟨t, rfl, ht⟩ := List.map_eq_singleton_iff.1 htokens
      rw [feed_cons_of_takes ht (.name level enclosing n), feed_nil]
  | paren _ ih =>
      intro tokens htokens level enclosing
      obtain ⟨t, rest, rfl, ht, hrest⟩ := List.map_eq_cons_iff.1 htokens
      obtain ⟨inner, closing, rfl, hinner, hclosing⟩ := List.map_eq_append_iff.1 hrest
      obtain ⟨u, rfl, hu⟩ := List.map_eq_singleton_iff.1 hclosing
      -- inside, the level that the parenthesis interrupted waits among the enclosing ones
      obtain ⟨disjunct, operand, hfeed, rfl⟩ := ih inner hinner (level :: enclosing)
      rw [feed_cons_of_takes ht (.opening level enclosing), feed_append_of_ok hfeed,
          feed_cons_of_takes hu (.closing disjunct operand level enclosing), feed_nil]
  | ofPrimary _ ih => exact ih
  | bang _ ih =>
      intro tokens htokens level enclosing
      obtain ⟨t, rest, rfl, ht, hrest⟩ := List.map_eq_cons_iff.1 htokens
      rw [feed_cons_of_takes ht (.bang level enclosing), ih rest hrest, supply_negations]
  | ofUnary _ ih =>
      intro tokens htokens disjunct enclosing
      exact ih tokens htokens { disjunct } enclosing
  | and _ _ ihf ihg =>
      intro tokens htokens disjunct enclosing
      obtain ⟨left, rest, rfl, hleft, hrest⟩ := List.map_eq_append_iff.1 htokens
      obtain ⟨t, right, rfl, ht, hright⟩ := List.map_eq_cons_iff.1 hrest
      have hfeed := ihf left hleft disjunct enclosing
      rw [feed_append_of_ok hfeed, feed_cons_of_takes ht (.and disjunct _ enclosing)]
      exact ihg right hright _ enclosing
  | ofConjunction _ ih =>
      intro tokens htokens enclosing
      exact ⟨none, _, ih tokens htokens none enclosing, rfl⟩
  | or _ _ ihf ihg =>
      intro tokens htokens enclosing
      obtain ⟨left, rest, rfl, hleft, hrest⟩ := List.map_eq_append_iff.1 htokens
      obtain ⟨t, right, rfl, ht, hright⟩ := List.map_eq_cons_iff.1 hrest
      obtain ⟨disjunct, operand, hfeed, rfl⟩ := ihf left hleft enclosing
      refine ⟨some (join disjunct operand), _, ?_, rfl⟩
      rw [feed_append_of_ok hfeed, feed_cons_of_takes ht (.or disjunct operand enclosing)]
      exact ihg right hright (some (join disjunct operand)) enclosing

/-! ## §3. A reading spells what was read. -/

/-- The symbols of a pending operand and of the sign that waits behind it;
there are none when nothing is pending. -/
def Pending (rank : Rank) (sign : Symbol) : Option Formula → List Symbol → Prop
  | none, word => word = []
  | some f, word => ∃ left, word = left ++ [sign] ∧ Derives rank left f

/-- The symbols read at a level where an operand is wanted. -/
def Level.Spells (level : Level Formula) (word : List Symbol) : Prop :=
  ∃ left middle, Pending .disjunction .or level.disjunct left
    ∧ Pending .conjunction .and level.conjunct middle
    ∧ word = left ++ (middle ++ List.replicate level.negations .bang)

/-- The symbols read up to the innermost open parenthesis. -/
def Encloses : List (Level Formula) → List Symbol → Prop
  | [], word => word = []
  | level :: outer, word =>
      ∃ before inside, Encloses outer before ∧ level.Spells inside
        ∧ word = before ++ (inside ++ [.opening])

/-- The symbols read so far. -/
def Reading.Spells : Reading Formula → List Symbol → Prop
  | .wanting level enclosing, word =>
      ∃ before inside, Encloses enclosing before ∧ level.Spells inside
        ∧ word = before ++ inside
  | .having disjunct operand enclosing, word =>
      ∃ before left right, Encloses enclosing before
        ∧ Pending .disjunction .or disjunct left ∧ Derives .conjunction right operand
        ∧ word = before ++ (left ++ right)

theorem spells_default : Level.Spells {} [] :=
  ⟨[], [], rfl, rfl, rfl⟩

/-- Negation signs in front of a phrase negate it. -/
theorem derives_negations {word : List Symbol} {f : Formula} (h : Derives .unary word f) :
    ∀ n : Nat, Derives .unary (List.replicate n .bang ++ word) (n.repeat Formula.neg f) := by
  intro n
  induction n with
  | zero => exact h
  | succ n ih => exact .bang ih

theorem derives_complete {level : Level Formula} {middle word : List Symbol} {f : Formula}
    (hmiddle : Pending .conjunction .and level.conjunct middle)
    (h : Derives .primary word f) :
    Derives .conjunction (middle ++ (List.replicate level.negations .bang ++ word))
      (level.complete f) := by
  have hnegated := derives_negations (.ofPrimary h) level.negations
  unfold Level.complete
  cases hc : level.conjunct with
  | none =>
      rw [hc] at hmiddle
      rw [show middle = [] from hmiddle]
      exact .ofUnary hnegated
  | some left =>
      rw [hc] at hmiddle
      obtain ⟨symbols, rfl, hleft⟩ := hmiddle
      rw [List.append_assoc]
      exact .and hleft hnegated

theorem derives_join {disjunct : Option Formula} {operand : Formula}
    {left right : List Symbol} (hleft : Pending .disjunction .or disjunct left)
    (hright : Derives .conjunction right operand) :
    Derives .disjunction (left ++ right) (join disjunct operand) := by
  cases disjunct with
  | none =>
      rw [show left = [] from hleft]
      exact .ofConjunction hright
  | some f =>
      obtain ⟨symbols, rfl, hf⟩ := hleft
      rw [List.append_assoc]
      exact .or hf hright

theorem spells_supply {level : Level Formula} {enclosing : List (Level Formula)}
    {before inside word : List Symbol} {f : Formula} (hbefore : Encloses enclosing before)
    (hinside : level.Spells inside) (h : Derives .primary word f) :
    (supply level f enclosing).Spells (before ++ (inside ++ word)) := by
  obtain ⟨left, middle, hleft, hmiddle, rfl⟩ := hinside
  refine ⟨before, left, _, hbefore, hleft, derives_complete hmiddle h, ?_⟩
  simp only [List.append_assoc]

/-- **One symbol more.** -/
theorem Reading.Takes.spells {reading after : Reading Formula} {symbol : Symbol}
    {word : List Symbol}
    (h : Takes reading symbol after) (hspells : reading.Spells word) :
    after.Spells (word ++ [symbol]) := by
  cases h with
  | name level enclosing n =>
      obtain ⟨before, inside, hbefore, hinside, rfl⟩ := hspells
      rw [List.append_assoc]
      exact spells_supply hbefore hinside (.name n)
  | bang level enclosing =>
      -- signs in a row are alike, so the new one may stand behind the others
      obtain ⟨before, inside, hbefore, ⟨left, middle, hleft, hmiddle, rfl⟩, rfl⟩ := hspells
      refine ⟨before, _, hbefore, ⟨left, middle, hleft, hmiddle, rfl⟩, ?_⟩
      rw [List.replicate_succ']
      simp only [List.append_assoc]
  | opening level enclosing =>
      obtain ⟨before, inside, hbefore, hinside, rfl⟩ := hspells
      refine ⟨_, [], ⟨before, inside, hbefore, hinside, rfl⟩, spells_default, ?_⟩
      rw [List.append_nil, List.append_assoc]
  | and disjunct operand enclosing =>
      obtain ⟨before, left, right, hbefore, hleft, hright, rfl⟩ := hspells
      refine ⟨before, _, hbefore, ⟨left, right ++ [.and], hleft, ⟨right, rfl, hright⟩, rfl⟩, ?_⟩
      simp
  | or disjunct operand enclosing =>
      obtain ⟨before, left, right, hbefore, hleft, hright, rfl⟩ := hspells
      have hjoin := derives_join hleft hright
      refine ⟨before, _, hbefore, ⟨_, [], ⟨_, rfl, hjoin⟩, rfl, rfl⟩, ?_⟩
      simp
  | closing disjunct operand level enclosing =>
      -- what stood in parentheses is the operand that the level outside wanted
      obtain ⟨_, left, right, ⟨before, inside, hbefore, hinside, rfl⟩, hleft, hright, rfl⟩ :=
        hspells
      have hparen := Derives.paren (derives_join hleft hright)
      have hsupply := spells_supply hbefore hinside hparen
      simpa using hsupply

theorem spells_feed {tokens : List Token} :
    ∀ {reading after : Reading Formula} {word : List Symbol}, reading.Spells word →
      reading.feed tokens = .ok after → after.Spells (word ++ tokens.map Token.symbol) := by
  induction tokens with
  | nil =>
      intro reading after word hspells h
      cases h
      rw [List.map_nil, List.append_nil]
      exact hspells
  | cons t tokens ih =>
      intro reading after word hspells h
      rw [feed_cons] at h
      cases hstep : reading.step t with
      | error refusal => rw [hstep] at h; cases h
      | ok next =>
          rw [hstep] at h
          have htakes := step_eq_ok_iff.1 hstep
          have hnext := htakes.spells hspells
          rw [List.map_cons, List.append_cons]
          exact ih hnext h

theorem spells_start : Reading.start.Spells [] :=
  ⟨[], [], rfl, spells_default, rfl⟩

/-- What is left at the end of a text is a phrase. -/
theorem derives_finish {reading : Reading Formula} {stop : Stop} {word : List Symbol} {f : Formula}
    (hspells : reading.Spells word) (h : reading.finish stop = .ok f) :
    Derives .disjunction word f ∧ ∃ position, stop = .endOfText position := by
  -- only a reading that has an operand and no open parenthesis may end
  cases reading with
  | wanting level enclosing => cases stop <;> cases h
  | having disjunct operand enclosing =>
      cases stop with
      | failure error => cases h
      | endOfText position =>
          cases enclosing with
          | cons level enclosing => cases h
          | nil =>
              cases h
              obtain ⟨before, left, right, hbefore, hleft, hright, rfl⟩ := hspells
              rw [show before = [] from hbefore, List.nil_append]
              exact ⟨derives_join hleft hright, position, rfl⟩

/-! ## §4. The reader and the grammar. -/

/-- **The reader accepts the phrases of the grammar, and nothing else**, and
finds their trees. -/
theorem Formula.ofTokens_eq_ok_iff {stream : TokenStream} {f : Formula} :
    Formula.ofTokens stream = .ok f ↔
      Derives .disjunction (stream.tokens.map Token.symbol) f
        ∧ ∃ position, stream.stop = .endOfText position := by
  unfold Formula.ofTokens
  rw [run_eq]
  constructor
  · intro h
    cases hfeed : Reading.start.feed stream.tokens with
    | error refusal => rw [hfeed] at h; cases h
    | ok reading =>
        rw [hfeed] at h
        have hspells := spells_feed spells_start hfeed
        exact derives_finish hspells h
  · intro h
    obtain ⟨hderives, position, hstop⟩ := h
    obtain ⟨disjunct, operand, hfeed, rfl⟩ := hderives.reads stream.tokens rfl []
    have hstart : Reading.start.feed stream.tokens
        = .ok (.having disjunct operand []) := hfeed
    rw [hstart, hstop]
    rfl

/-- Symbols at any places. -/
theorem map_symbol_placed (word : List Symbol) (position : Position) :
    (word.map fun s => Token.mk s position).map Token.symbol = word := by
  rw [List.map_map]
  exact List.map_id word

/-- **A word has one tree at most.** -/
theorem Derives.unique {word : List Symbol} {f g : Formula}
    (hf : Derives .disjunction word f) (hg : Derives .disjunction word g) : f = g := by
  -- the reader is a function, and it finds both trees at the end of the same tokens
  have hread : ∀ {h : Formula}, Derives .disjunction word h →
      Formula.ofTokens ⟨word.map (⟨·, 0, 0⟩), .endOfText ⟨0, 0⟩⟩ = .ok h := by
    intro h hh
    refine Formula.ofTokens_eq_ok_iff.2 ⟨?_, _, rfl⟩
    rw [map_symbol_placed]
    exact hh
  exact Except.ok.inj ((hread hf).symm.trans (hread hg))

/-! ## §5. Texts. -/

/-- The text can be cut into tokens up to its end, and their symbols are a
phrase with this tree.  The number of the line plays no role. -/
def Formula.SpelledBy (f : Formula) (text : Bytes) : Prop :=
  (∃ position, (TokenStream.ofText text 1).stop = .endOfText position)
    ∧ Derives .disjunction ((TokenStream.ofText text 1).tokens.map Token.symbol) f

/-- **Reading a text**, on any line. -/
theorem Formula.ofText_eq_ok_iff {text : Bytes} {line : UInt32} {f : Formula} :
    Formula.ofText text line = .ok f ↔ f.SpelledBy text := by
  unfold Formula.ofText Formula.SpelledBy
  rw [ofTokens_eq_ok_iff, TokenStream.ofText_onLine text 1 line,
      TokenStream.map_symbol_onLine, and_comm]
  exact and_congr_left fun _ => Stop.onLine_eq_endOfText_iff _ line

theorem Formula.SpelledBy.unique {f g : Formula} {text : Bytes} (hf : f.SpelledBy text)
    (hg : g.SpelledBy text) : f = g :=
  hf.2.unique hg.2

/-! ### The number of the line. -/

/-- The same refusal on another line. -/
def Refusal.onLine (refusal : Refusal) (line : UInt32) : Refusal :=
  { refusal with error := refusal.error.onLine line }

namespace Reading

theorem step_onLine (reading : Reading Formula) (t : Token) (line : UInt32) :
    reading.step (t.onLine line) = (reading.step t).mapError (·.onLine line) := by
  obtain ⟨symbol, position⟩ := t
  cases reading with
  | wanting level enclosing => cases symbol <;> rfl
  | having disjunct operand enclosing => cases symbol <;> cases enclosing <;> rfl

theorem feed_onLine (line : UInt32) (tokens : List Token) :
    ∀ reading : Reading Formula, reading.feed (tokens.map (·.onLine line))
      = (reading.feed tokens).mapError (·.onLine line) := by
  induction tokens with
  | nil => intro reading; rfl
  | cons t tokens ih =>
      intro reading
      rw [List.map_cons, feed_cons, feed_cons, step_onLine]
      cases reading.step t with
      | error refusal => rfl
      | ok after => exact ih after

theorem finish_onLine (reading : Reading Formula) (stop : Stop) (line : UInt32) :
    reading.finish (stop.onLine line) = (reading.finish stop).mapError (·.onLine line) := by
  cases reading with
  | wanting level enclosing => cases stop <;> rfl
  | having disjunct operand enclosing => cases stop <;> cases enclosing <;> rfl

end Reading

/-- **What a text is read as on two lines** differs in nothing but the line
of the error; what is left of a refused text is the same. -/
theorem Formula.ofText_onLine (text : Bytes) (line line' : UInt32) :
    Formula.ofText text line' = (Formula.ofText text line).mapError (·.onLine line') := by
  unfold Formula.ofText Formula.ofTokens
  rw [TokenStream.ofText_onLine text line line', run_eq, run_eq]
  show (Reading.start.feed (List.map _ _)).bind _ = _
  rw [feed_onLine]
  cases Reading.start.feed (TokenStream.ofText text line).tokens with
  | error refusal => rfl
  | ok reading => exact finish_onLine reading _ line'

end PresenceTable
