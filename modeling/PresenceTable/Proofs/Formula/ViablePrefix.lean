/-
  PresenceTable.Proofs.Formula.ViablePrefix
  ─────────────────────────────────────────
  **REFUSALS COME AS EARLY AS THEY CAN.**

  The grammar says which words are sentences, and nothing about where a word
  goes wrong.  What can be said in its terms is up to where a word is the
  beginning of a sentence.  The reader goes wrong at no other place:

      the symbols so far are taken  ⟺  they are the beginning of a sentence

  From left to right because every reading can be completed, by a name if an
  operand is wanted and by a closing parenthesis for each open one; from
  right to left because the reader takes sentences, and does not look ahead.

  The end of a text counts as one more mark behind its symbols, so that a
  text that ends too early goes wrong there.

  Main results:
    * `exists_completion` — every reading can be completed;
    * `viable_tokens_iff` — what the reader takes, in terms of the grammar;
    * `ofTokens_eq_error` — where a refusal stands, and what it depends on.
-/
import PresenceTable.Proofs.Formula.Reading

namespace PresenceTable

/-! ## §1. Marks. -/

/-- What the reader is shown: a symbol, or the end of the text when there is
none, and where it stands. -/
structure Mark where
  symbol : Option Symbol
  position : Position
  deriving DecidableEq, Repr

/-- The mark that a token is. -/
def Token.mark (t : Token) : Mark := ⟨some t.symbol, t.position⟩

/-- The mark at the end of a text, if the tokens reach it. -/
def Stop.marks : Stop → List Mark
  | .endOfText position => [⟨none, position⟩]
  | .failure _ => []

/-- All marks from the left, up to the end of the text or to the first place
where no symbol begins. -/
def TokenStream.marks (stream : TokenStream) : List Mark :=
  stream.tokens.map Token.mark ++ stream.stop.marks

theorem Token.eq_of_mark_eq {t u : Token} (h : t.mark = u.mark) : t = u := by
  obtain ⟨symbol, position⟩ := t
  cases h
  rfl

theorem map_symbol_map_mark (tokens : List Token) :
    (tokens.map Token.mark).map Mark.symbol = (tokens.map Token.symbol).map some := by
  rw [List.map_map, List.map_map]
  rfl

/-- A mark with a symbol is a token, and so is every mark in front of it. -/
theorem TokenStream.exists_tokens_of_marks {mark : Mark} {symbol : Symbol} {after : List Mark}
    (hsymbol : mark.symbol = some symbol) (before : List Mark) :
    ∀ stream : TokenStream, stream.marks = before ++ mark :: after →
      ∃ tokens t later, stream.tokens = tokens ++ t :: later
        ∧ before = tokens.map Token.mark ∧ mark = t.mark := by
  induction before with
  | nil =>
      rintro ⟨_ | ⟨u, later⟩, stop⟩ h
      · cases stop <;> cases h
        cases hsymbol
      · obtain ⟨rfl, -⟩ := List.cons.inj h
        exact ⟨[], u, later, rfl, rfl, rfl⟩
  | cons m before ih =>
      rintro ⟨_ | ⟨u, later⟩, stop⟩ h
      · -- behind the end of the text there is no mark
        cases stop with
        | failure error => cases h
        | endOfText position => exact absurd (List.cons.inj h).2 (by simp)
      · obtain ⟨rfl, hrest⟩ := List.cons.inj h
        obtain ⟨tokens, t, more, hlater, rfl, rfl⟩ := ih ⟨later, stop⟩ hrest
        have hlater' : later = tokens ++ t :: more := hlater
        exact ⟨u :: tokens, t, more, by rw [hlater']; rfl, rfl, rfl⟩

/-- The mark at the end is the last one, and all others are tokens. -/
theorem TokenStream.eq_of_marks_end {position : Position} {after : List Mark}
    (tokens : List Token) : ∀ stream : TokenStream,
      stream.marks = tokens.map Token.mark ++ ⟨none, position⟩ :: after →
        stream = ⟨tokens, .endOfText position⟩ := by
  induction tokens with
  | nil =>
      rintro ⟨_ | ⟨u, later⟩, stop⟩ h
      · cases stop <;> cases h
        rfl
      · cases h
  | cons u tokens ih =>
      rintro ⟨_ | ⟨v, later⟩, stop⟩ h
      · cases stop <;> cases h
      · obtain ⟨hmark, hrest⟩ := List.cons.inj h
        cases ih ⟨later, stop⟩ hrest
        rw [Token.eq_of_mark_eq hmark]

/-! ## §2. Beginnings of sentences. -/

/-! ### A word with its end behind it. -/

section Ending

variable {α : Type}

theorem map_some_prefix_iff {part : List α} : ∀ {word : List α},
    part.map some <+: word.map some ++ [none] ↔ part <+: word := by
  induction part with
  | nil => intro word; exact iff_of_true List.nil_prefix List.nil_prefix
  | cons a part ih =>
      intro word
      cases word with
      | nil => simp
      | cons b word => simp [ih]

theorem map_some_end_prefix_iff {part : List α} : ∀ {word : List α},
    part.map some ++ [none] <+: word.map some ++ [none] ↔ part = word := by
  induction part with
  | nil =>
      intro word
      cases word <;> simp
  | cons a part ih =>
      intro word
      cases word with
      | nil => simp
      | cons b word => simp [ih]

end Ending

/-! ### Sentences of the grammar. -/

/-- The marks are the beginning of a sentence of the grammar, behind which
stands the end. -/
def Viable (marks : List Mark) : Prop :=
  ∃ word f, Derives .disjunction word f ∧ marks.map Mark.symbol <+: word.map some ++ [none]

theorem Viable.of_prefix {marks more : List Mark} (h : Viable more) (hbegins : marks <+: more) :
    Viable marks := by
  obtain ⟨word, f, hderives, hmore⟩ := h
  exact ⟨word, f, hderives, (hbegins.map Mark.symbol).trans hmore⟩

/-- Marks up to the end are a sentence or not the beginning of one. -/
theorem viable_end_iff {tokens : List Token} {position : Position} :
    Viable (tokens.map Token.mark ++ [Mark.mk none position])
      ↔ ∃ f, Derives .disjunction (tokens.map Token.symbol) f := by
  have hmarks : (tokens.map Token.mark ++ [Mark.mk none position]).map Mark.symbol
      = (tokens.map Token.symbol).map some ++ [none] := by
    rw [List.map_append, map_symbol_map_mark]
    rfl
  unfold Viable
  rw [hmarks]
  constructor
  · rintro ⟨word, f, hderives, hbegins⟩
    exact ⟨f, map_some_end_prefix_iff.1 hbegins ▸ hderives⟩
  · rintro ⟨f, hderives⟩
    exact ⟨_, f, hderives, List.prefix_rfl⟩

namespace Reading

/-- **Every reading can be completed.** -/
theorem exists_completion (position : Position) (reading : Reading Formula) :
    ∃ later f, (reading.feed later).bind (·.finish (.endOfText position)) = .ok f := by
  -- an operand is completed by closing what is open, from the inside
  have hhaving : ∀ (enclosing : List (Level Formula)) (disjunct : Option Formula)
      (operand : Formula),
      ∃ later f, ((having disjunct operand enclosing).feed later).bind
        (·.finish (.endOfText position)) = .ok f := by
    intro enclosing
    induction enclosing with
    | nil => intro disjunct operand; exact ⟨[], _, rfl⟩
    | cons level outer ih =>
        intro disjunct operand
        obtain ⟨later, f, h⟩ := ih level.disjunct (level.complete (join disjunct operand))
        refine ⟨⟨.closing, position⟩ :: later, f, ?_⟩
        rw [feed_cons_of_takes rfl (.closing disjunct operand level outer)]
        exact h
  cases reading with
  | having disjunct operand enclosing => exact hhaving enclosing disjunct operand
  | wanting level enclosing =>
      let n : Name := ⟨"A", by decide⟩
      obtain ⟨later, f, h⟩ := hhaving enclosing level.disjunct (level.complete (.var n))
      refine ⟨⟨.name n, position⟩ :: later, f, ?_⟩
      rw [feed_cons_of_takes rfl (.name level enclosing n)]
      exact h

/-- **What the reader takes**: beginnings of sentences. -/
theorem viable_tokens_iff {tokens : List Token} :
    Viable (tokens.map Token.mark) ↔ ∃ reading, start.feed tokens = .ok reading := by
  constructor
  · rintro ⟨word, f, hderives, hbegins⟩
    rw [map_symbol_map_mark] at hbegins
    obtain ⟨rest, rfl⟩ := map_some_prefix_iff.1 hbegins
    -- the sentence is taken, so its front part is taken before
    obtain ⟨disjunct, operand, hfeed, -⟩ := hderives.reads
      (tokens ++ rest.map fun s => Token.mk s ⟨0, 0⟩)
      (by rw [List.map_append, map_symbol_placed]) []
    replace hfeed : start.feed (tokens ++ rest.map fun s => Token.mk s ⟨0, 0⟩)
        = .ok (.having disjunct operand []) := hfeed
    rw [feed_append] at hfeed
    cases hstart : start.feed tokens with
    | ok reading => exact ⟨reading, rfl⟩
    | error refusal =>
        rw [hstart] at hfeed
        cases hfeed
  · rintro ⟨reading, hfeed⟩
    obtain ⟨later, f, hlater⟩ := exists_completion ⟨0, 0⟩ reading
    have hread : Formula.ofTokens ⟨tokens ++ later, .endOfText ⟨0, 0⟩⟩ = .ok f := by
      unfold Formula.ofTokens
      rw [run_eq, feed_append_of_ok hfeed]
      exact hlater
    obtain ⟨hderives, -⟩ := Formula.ofTokens_eq_ok_iff.1 hread
    refine ⟨_, f, hderives, ?_⟩
    rw [map_symbol_map_mark, List.map_append, List.map_append, List.append_assoc]
    exact List.prefix_append _ _

/-! ## §3. Refusals. -/

theorem position_of_step_error {reading : Reading Formula} {t : Token} {refusal : Refusal}
    (h : reading.step t = .error refusal) : refusal.error.position = t.position := by
  obtain ⟨symbol, position⟩ := t
  cases reading with
  | wanting level enclosing => cases symbol <;> cases h <;> rfl
  | having disjunct operand enclosing => cases symbol <;> cases enclosing <;> cases h <;> rfl

theorem position_of_finish_error {reading : Reading Formula} {position : Position}
    {refusal : Refusal}
    (h : reading.finish (.endOfText position) = .error refusal) :
    refusal.error.position = position := by
  cases reading with
  | wanting level enclosing => cases h; rfl
  | having disjunct operand enclosing => cases enclosing <;> cases h; rfl

/-- Where no symbol begins there is no sentence, and the refusal says so. -/
theorem error_of_finish_failure {reading : Reading Formula} {lexical : SyntaxError}
    {refusal : Refusal}
    (h : reading.finish (.failure lexical) = .error refusal) : refusal.error = lexical := by
  cases reading <;> cases h <;> rfl

/-- One of the tokens is refused, and those in front of it are taken. -/
theorem exists_of_feed_error {refusal : Refusal} {tokens : List Token} :
    ∀ {reading : Reading Formula}, reading.feed tokens = .error refusal →
      ∃ before t after next, tokens = before ++ t :: after ∧ reading.feed before = .ok next
        ∧ next.step t = .error refusal := by
  induction tokens with
  | nil => intro reading h; cases h
  | cons t tokens ih =>
      intro reading h
      rw [feed_cons] at h
      cases hstep : reading.step t with
      | error other =>
          rw [hstep] at h
          cases h
          exact ⟨[], t, tokens, reading, rfl, rfl, hstep⟩
      | ok next =>
          rw [hstep] at h
          obtain ⟨before, u, after, last, rfl, hfeed, hrefused⟩ := ih h
          refine ⟨t :: before, u, after, last, rfl, ?_, hrefused⟩
          rw [feed_cons, hstep]
          exact hfeed

theorem feed_eq_error {reading next : Reading Formula} {before after : List Token} {t : Token}
    {refusal : Refusal} (hfeed : reading.feed before = .ok next)
    (hstep : next.step t = .error refusal) :
    reading.feed (before ++ t :: after) = .error refusal := by
  rw [feed_append_of_ok hfeed, feed_cons, hstep]
  rfl

end Reading

/-- The first of the marks with which they are no longer the beginning of a
sentence, and what stands in front of it and behind it. -/
structure RefusedAt (marks before : List Mark) (mark : Mark) (after : List Mark) : Prop where
  cut : marks = before ++ mark :: after
  viable : Viable before
  refused : ¬ Viable (before ++ [mark])

theorem RefusedAt.not_viable {marks before after : List Mark} {mark : Mark}
    (h : RefusedAt marks before mark after) : ¬ Viable marks := by
  intro hviable
  refine h.refused (hviable.of_prefix ⟨after, ?_⟩)
  rw [h.cut, List.append_assoc]
  rfl

/-- The refusal stands at the mark, and whatever stands behind the mark plays
no role. -/
structure Refusal.StandsAt (refusal : Refusal) (before : List Mark) (mark : Mark) : Prop where
  position : refusal.error.position = mark.position
  determined : ∀ (stream : TokenStream) (after : List Mark),
    stream.marks = before ++ mark :: after → Formula.ofTokens stream = .error refusal

namespace Formula

open Reading

/-- A token that is refused: it is the first mark with which the marks are the
beginning of no sentence, as those in front of it are taken. -/
theorem refusal_at_token {before after : List Token} {t : Token} {stop : Stop}
    {next : Reading Formula} {refusal : Refusal} (htaken : start.feed before = .ok next)
    (hstep : next.step t = .error refusal) :
    RefusedAt (TokenStream.marks ⟨before ++ t :: after, stop⟩) (before.map Token.mark) t.mark
        (after.map Token.mark ++ stop.marks)
      ∧ refusal.StandsAt (before.map Token.mark) t.mark := by
  have hrefused : ∀ later, start.feed (before ++ t :: later) = .error refusal :=
    fun _ => feed_eq_error htaken hstep
  refine ⟨⟨?_, viable_tokens_iff.2 ⟨next, htaken⟩, fun hviable => ?_⟩,
    position_of_step_error hstep, fun stream later hmarks => ?_⟩
  · simp [TokenStream.marks]
  · have hmap : before.map Token.mark ++ [t.mark] = (before ++ [t]).map Token.mark := by simp
    obtain ⟨reading, hreading⟩ := viable_tokens_iff.1 (hmap ▸ hviable)
    rw [hrefused] at hreading
    cases hreading
  · obtain ⟨tokens, u, more, hmore, hbefore, hmark⟩ :=
      TokenStream.exists_tokens_of_marks rfl _ stream hmarks
    obtain rfl := (List.map_inj_right fun _ _ => Token.eq_of_mark_eq).1 hbefore
    obtain rfl := Token.eq_of_mark_eq hmark
    unfold ofTokens
    rw [run_eq, hmore, hrefused]
    rfl

/-- A text that ends too early: with its end the marks are no sentence. -/
theorem refusal_at_end {tokens : List Token} {position : Position} {reading : Reading Formula}
    {refusal : Refusal} (htaken : start.feed tokens = .ok reading)
    (hfinish : reading.finish (.endOfText position) = .error refusal) :
    RefusedAt (TokenStream.marks ⟨tokens, .endOfText position⟩) (tokens.map Token.mark)
        ⟨none, position⟩ []
      ∧ refusal.StandsAt (tokens.map Token.mark) ⟨none, position⟩ := by
  have hrefused : ofTokens ⟨tokens, .endOfText position⟩ = .error refusal := by
    unfold ofTokens
    rw [run_eq, htaken]
    exact hfinish
  refine ⟨⟨rfl, viable_tokens_iff.2 ⟨reading, htaken⟩, fun hsentence => ?_⟩,
    position_of_finish_error hfinish, fun stream later hmarks => ?_⟩
  · obtain ⟨f, hderives⟩ := viable_end_iff.1 hsentence
    have hread : ofTokens ⟨tokens, .endOfText position⟩ = .ok f :=
      ofTokens_eq_ok_iff.2 ⟨hderives, position, rfl⟩
    rw [hrefused] at hread
    cases hread
  · rw [TokenStream.eq_of_marks_end tokens stream hmarks]
    exact hrefused

/-- **Where a refusal stands.**  A refused text is the beginning of a sentence
up to a place where no symbol begins, and refused for what is wrong there; or
it is refused at the first mark with which it is the beginning of no sentence. -/
theorem ofTokens_eq_error {stream : TokenStream} {refusal : Refusal}
    (h : ofTokens stream = .error refusal) :
    (Viable stream.marks ∧ stream.stop = .failure refusal.error)
      ∨ ∃ before mark after, RefusedAt stream.marks before mark after
          ∧ refusal.StandsAt before mark := by
  obtain ⟨tokens, stop⟩ := stream
  unfold ofTokens at h
  rw [run_eq] at h
  cases htaken : start.feed tokens with
  | error other =>
      rw [htaken] at h
      cases h
      obtain ⟨before, t, after, next, rfl, hbefore, hstep⟩ := exists_of_feed_error htaken
      exact .inr ⟨_, _, _, refusal_at_token hbefore hstep⟩
  | ok reading =>
      rw [htaken] at h
      cases stop with
      | endOfText position => exact .inr ⟨_, _, _, refusal_at_end htaken h⟩
      | failure lexical =>
          have hmarks : TokenStream.marks ⟨tokens, .failure lexical⟩ = tokens.map Token.mark :=
            List.append_nil _
          rw [hmarks, error_of_finish_failure h]
          exact .inl ⟨viable_tokens_iff.2 ⟨reading, htaken⟩, rfl⟩

end Formula

end PresenceTable
