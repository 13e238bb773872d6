/-
  PresenceTable.Proofs.LineEndings
  ────────────────────────────────
  **LINE ENDINGS DO NOT MATTER.**

  Where lines end with a carriage return and a newline, only the newline is
  taken for their end, and a blank is left behind every line but the last.
  The blank takes part in everything that is done with the line: it may
  belong to its condition, or stand where the byte between path and
  condition should, and an error that is due at the end of the condition is
  reported behind it.  Still no more is affected than such reports.

      Bytes.Padded text text'

  says that the second text is the first, or the first with a blank behind
  it.  What is taken from padded texts is padded again, down to symbols,
  which are the same.

  Main results:
    * `Formula.ofText_append_space` — white space behind a condition;
    * `judgedAlike_of_padded` — a blank behind a line;
    * `Input.forall₂_lines_crlf` — the lines of a text with the other line
      endings;
    * `Conversion.listing_crlf` — its conversion, and the table of types that
      it declares.
-/
import PresenceTable.Proofs.Cutting
import PresenceTable.Proofs.Likeness
import PresenceTable.Proofs.Listing
import PresenceTable.Proofs.Token.Tiling
import PresenceTable.TypeTable

namespace PresenceTable

/-! ## §1. A blank behind a text. -/

namespace Bytes

/-- The second text is the first, or the first with a blank behind it. -/
inductive Padded (text : Bytes) : Bytes → Prop
  | same : Padded text text
  | blank {b : UInt8} (hb : isBlank b = true) : Padded text (text ++ [b])

theorem Padded.trim_eq {text text' : Bytes} (h : Padded text text') : trim text' = trim text := by
  cases h with
  | same => rfl
  | blank hb => exact trim_append_of_isBlank (by simpa using hb) text

theorem Padded.stripComment_eq {text text' : Bytes} (h : Padded text text') :
    stripComment text' = stripComment text := by
  cases h with
  | same => rfl
  | blank hb => exact stripComment_append_of_isBlank (by simpa using hb) text

/-- A text without blanks stands in a padded text where it stood before. -/
theorem Padded.occursIn_eq {pattern text text' : Bytes} (h : Padded text text')
    (hpattern : ∀ b ∈ pattern, isBlank b = false) (hne : pattern ≠ []) :
    occursIn pattern text' = occursIn pattern text := by
  cases h with
  | same => rfl
  | @blank b hb =>
      rw [Bool.eq_iff_iff, occursIn_iff, occursIn_iff, List.infix_concat_iff,
        List.suffix_concat_iff]
      refine or_iff_right ?_
      rintro (hnil | ⟨front, hfront, -⟩)
      · exact hne hnil
      · have hlast := hpattern b (by rw [hfront]; simp)
        rw [hb] at hlast
        cases hlast

end Bytes

namespace ListingLine

/-- The lines say the same, but for a blank behind the condition. -/
inductive Padded : ListingLine → ListingLine → Prop
  | blank : Padded .blank .blank
  | malformed : Padded .malformed .malformed
  | entry (path : Bytes) {condition condition' : Bytes} (h : condition.Padded condition') :
      Padded (.entry path condition) (.entry path condition')

/-- **A blank behind a line** is one behind its condition, or it is the byte
between path and condition. -/
theorem padded_ofText {text text' : Bytes} (h : text.Padded text') :
    Padded (ofText text) (ofText text') := by
  have htrim := h.trim_eq
  unfold ofText
  rw [htrim]
  split
  · exact .blank
  cases h with
  | same =>
      split
      · exact .malformed
      · exact .entry _ .same
  | @blank b hb =>
      have hnot : (! isColon b) = true := by
        rw [Bool.not_eq_true', ← Bool.not_eq_true]
        exact fun hcolon => Bytes.ne_of_isBlank (by decide) hb (beq_iff_eq.1 hcolon)
      have hnone : [b].dropWhile (! isColon ·) = [] := List.dropWhile_cons_of_pos hnot
      rw [List.dropWhile_append, List.takeWhile_append, hnone]
      cases hdrop : text.dropWhile (! isColon ·) with
      | nil => exact .malformed
      | cons colon separated =>
          have htake : (text.takeWhile (! isColon ·)).length ≠ text.length := by
            intro hlength
            have hcut := congrArg List.length
              (List.takeWhile_append_dropWhile (p := (! isColon ·)) (l := text))
            rw [List.length_append, hdrop, List.length_cons] at hcut
            omega
          rw [if_neg htake]
          cases separated with
          | nil => exact .entry _ .same
          | cons c rest => exact .entry _ (.blank hb)

end ListingLine

/-! ## §2. White space behind a condition. -/

section Space

variable {b : UInt8}

/-- Where no symbol begins, none does when white space follows, for the same
reason. -/
theorem Symbol.scan_append_space (hb : Bytes.isSpace b = true) {c : UInt8} {rest : Bytes}
    {reason : SyntaxError.Reason} (h : scan c rest = .error reason) :
    scan c (rest ++ [b]) = .error reason := by
  have hhead : c = '&'.toUInt8 ∨ c = '|'.toUInt8 →
      ((rest ++ [b]).head? = some c ↔ rest.head? = some c) := by
    intro hc
    cases rest with
    | nil =>
        refine iff_of_false ?_ (by simp)
        intro hbc
        cases hbc
        rcases hc with rfl | rfl <;> cases hb
    | cons d rest => exact Iff.rfl
  unfold scan at h ⊢
  split_ifs at h ⊢ with h₁ h₂ h₃ h₄ h₅ h₆ h₇ <;> simp_all

theorem Symbol.EndsBefore.append_space (hb : Bytes.isSpace b = true) {symbol : Symbol}
    {after : Bytes} (h : symbol.EndsBefore after) : symbol.EndsBefore (after ++ [b]) := by
  cases symbol with
  | name n =>
      refine ⟨h.1, fun c hc => ?_⟩
      cases after with
      | nil =>
          cases hc
          exact Bytes.isWord_eq_false_of_isSpace hb
      | cons d after => exact h.2 c hc
  | bang | and | or | opening | closing => trivial

/-- **White space behind a text** makes no symbol, and leaves the others. -/
theorem Cut.append_space (hb : Bytes.isSpace b = true) {offset final : Nat} {text : Bytes}
    {symbols : List PlacedSymbol} {reason : Option SyntaxError.Reason}
    (h : Cut offset text symbols final reason) :
    ∃ final', Cut offset (text ++ [b]) symbols final' reason := by
  induction h with
  | @endOfText offset space hspace =>
      refine ⟨_, .endOfText fun c hc => ?_⟩
      rcases List.mem_append.1 hc with hc | hc
      · exact hspace c hc
      · rw [List.mem_singleton.1 hc]
        exact hb
  | failure hspace hnot hscan =>
      rw [List.append_assoc, List.cons_append]
      exact ⟨_, .failure hspace hnot (Symbol.scan_append_space hb hscan)⟩
  | @symbol offset space symbol after later final reason hspace hends hlater ih =>
      obtain ⟨final', hcut⟩ := ih
      rw [List.append_assoc, List.append_assoc]
      exact ⟨final', .symbol hspace (hends.append_space hb) hcut⟩

/-- The place of the end matters to the place of an error only. -/
theorem Reading.finish_behind (reading : Reading Formula) (line : UInt32) (final final' : Nat)
    (reason : Option SyntaxError.Reason) :
    (reading.finish (Stop.behind line final' reason)).mapError Refusal.finished
      = (reading.finish (Stop.behind line final reason)).mapError Refusal.finished := by
  cases reading with
  | wanting level enclosing => cases reason <;> rfl
  | having disjunct operand enclosing =>
      cases reason with
      | some reason => rfl
      | none => cases enclosing <;> rfl

/-- **White space behind a condition** changes neither its tree nor, if it has
none, what of it was finished. -/
theorem Formula.ofText_append_space (hb : Bytes.isSpace b = true) (text : Bytes)
    (line : UInt32) :
    (ofText (text ++ [b]) line).mapError Refusal.finished
      = (ofText text line).mapError Refusal.finished := by
  obtain ⟨symbols, final, reason, hcut⟩ := exists_cut text 0
  obtain ⟨final', hcut'⟩ := hcut.append_space hb
  unfold ofText ofTokens
  rw [hcut.ofText_eq, hcut'.ofText_eq, Reading.run_eq, Reading.run_eq]
  dsimp only
  cases Reading.start.feed (symbols.map (·.token line)) with
  | error refusal => rfl
  | ok reading => exact reading.finish_behind line final final' reason

end Space

/-! ## §3. A blank behind a line. -/

/-- The reports have the same severity, and are about lines with the same
number. -/
def Diagnostic.SameGrade (d d' : Diagnostic) : Prop :=
  d.severity = d'.severity ∧ d.line = d'.line

theorem Verdict.Alike.refl (number : UInt32) (v : Verdict) :
    Verdict.Alike Diagnostic.SameGrade number number v v :=
  ⟨rfl, fun _ => rfl, rfl, List.forall₂_same.2 fun _ _ => ⟨rfl, rfl⟩⟩

/-- What the store makes of a condition with a blank behind it. -/
theorem Store.read_of_padded {condition condition' : Bytes} (h : condition.Padded condition')
    (s : Store) (line : UInt32) :
    (∃ id t, s.read condition line = (.ok id, t) ∧ s.read condition' line = (.ok id, t))
      ∨ ∃ error error' t, s.read condition line = (.error error, t)
        ∧ s.read condition' line = (.error error', t) := by
  have hread : (Formula.ofText condition' line).mapError Refusal.finished
      = (Formula.ofText condition line).mapError Refusal.finished := by
    cases h with
    | same => rfl
    | blank hb => exact Formula.ofText_append_space (Bytes.isSpace_of_isBlank hb) condition line
  rw [read_eq_take, read_eq_take]
  generalize Formula.ofText condition line = reading at hread
  generalize Formula.ofText condition' line = reading' at hread
  cases reading with
  | error refusal =>
      cases reading' with
      | ok f => cases hread
      | error refusal' =>
          -- the same operands were finished, so the same is stored
          have hfinished : refusal'.finished = refusal.finished := Except.error.inj hread
          refine .inr ⟨refusal.error, refusal'.error, s.addAll refusal.finished, rfl, ?_⟩
          rw [← hfinished]
          rfl
  | ok f =>
      cases reading' with
      | error refusal => cases hread
      | ok g =>
          obtain rfl : g = f := Except.ok.inj hread
          exact .inl ⟨_, _, rfl, rfl⟩

theorem judgeCondition_of_padded (erased : Name → Bool) (s : Store) (path : Bytes)
    {condition condition' : Bytes} (h : condition.Padded condition') (line : UInt32) :
    Verdict.Alike Diagnostic.SameGrade line line (judgeCondition erased s path condition line).1
        (judgeCondition erased s path condition' line).1
      ∧ (judgeCondition erased s path condition line).2
        = (judgeCondition erased s path condition' line).2 := by
  rcases Store.read_of_padded h s line with
    ⟨id, t, hread, hread'⟩ | ⟨error, error', t, hread, hread'⟩
  · rw [judgeCondition_of_read hread, judgeCondition_of_read hread']
    exact ⟨.refl _ _, rfl⟩
  · unfold judgeCondition
    rw [hread, hread']
    exact ⟨⟨rfl, fun _ => rfl, rfl, .cons ⟨rfl, rfl⟩ .nil⟩, rfl⟩

/-- **A blank behind a line** changes what is reported about it at most. -/
theorem judgedAlike_of_padded (erased : Name → Bool) {text text' : Bytes}
    (h : text.Padded text') (number : UInt32) :
    JudgedAlike Diagnostic.SameGrade erased (text, number) (text', number) := by
  intro s
  have hline := ListingLine.padded_ofText h
  unfold judge
  dsimp only
  generalize ListingLine.ofText text = line at hline
  generalize ListingLine.ofText text' = line' at hline
  cases hline with
  | blank => exact ⟨.refl _ _, rfl⟩
  | malformed => exact ⟨⟨rfl, fun _ => rfl, rfl, .cons ⟨rfl, rfl⟩ .nil⟩, rfl⟩
  | entry path hcondition =>
      dsimp only
      rw [hcondition.occursIn_eq (by decide +kernel) (by decide)]
      split
      · exact ⟨.refl _ _, rfl⟩
      · exact judgeCondition_of_padded erased s path hcondition number

/-! ## §4. The other line endings. -/

namespace Input

/-- The input with a carriage return in front of every newline. -/
def crlf (input : Input) : Input :=
  { input with
    text := input.text.flatMap fun b => if isNewline b then ['\r'.toUInt8, b] else [b] }

/-- Every piece but the last has a carriage return behind it. -/
inductive Returned : List Bytes → List Bytes → Prop
  | last (piece : Bytes) : Returned [piece] [piece]
  | cons (piece : Bytes) {later later' : List Bytes} (h : Returned later later') :
      Returned (piece :: later) ((piece ++ ['\r'.toUInt8]) :: later')

/-- **Every newline leaves a carriage return** behind the piece in front of it. -/
theorem returned_split (text : Bytes) :
    Returned (Bytes.split isNewline text)
      (Bytes.split isNewline
        (text.flatMap fun b => if isNewline b then ['\r'.toUInt8, b] else [b])) := by
  induction text with
  | nil => exact .last []
  | cons b text ih =>
      rw [List.flatMap_cons]
      generalize hpieces : Bytes.split isNewline text = pieces at ih
      generalize hpieces' : Bytes.split isNewline (text.flatMap _) = pieces' at ih
      cases hb : isNewline b with
      | true =>
          show Returned _ (Bytes.split isNewline ('\r'.toUInt8 :: b :: text.flatMap _))
          rw [Bytes.split_cons_of_separates hb, hpieces, Bytes.split_cons_of_eq (by decide)
            (Bytes.split_cons_of_separates hb _), hpieces']
          exact .cons [] ih
      | false =>
          -- the byte joins the first piece, which is the last one or has others behind it
          show Returned _ (Bytes.split isNewline (b :: text.flatMap _))
          cases ih with
          | last piece =>
              rw [Bytes.split_cons_of_eq hb hpieces, Bytes.split_cons_of_eq hb hpieces']
              exact .last (b :: piece)
          | cons piece h =>
              rw [Bytes.split_cons_of_eq hb hpieces, Bytes.split_cons_of_eq hb hpieces']
              exact .cons (b :: piece) h

theorem Returned.getLast?_eq {pieces pieces' : List Bytes} (h : Returned pieces pieces') :
    pieces'.getLast? = pieces.getLast? := by
  induction h with
  | last piece => rfl
  | @cons piece later later' h ih =>
      have hne : later ≠ [] := by cases h <;> exact List.cons_ne_nil _ _
      have hne' : later' ≠ [] := by cases h <;> exact List.cons_ne_nil _ _
      obtain ⟨x, xs, rfl⟩ := List.exists_cons_of_ne_nil hne
      obtain ⟨y, ys, rfl⟩ := List.exists_cons_of_ne_nil hne'
      rw [List.getLast?_cons_cons, List.getLast?_cons_cons, ih]

theorem Returned.padded {pieces pieces' : List Bytes} (h : Returned pieces pieces') :
    List.Forall₂ Bytes.Padded pieces pieces' := by
  induction h with
  | last piece => exact .cons .same .nil
  | cons piece _ ih => exact .cons (.blank (by decide)) ih

theorem Returned.padded_dropLast {pieces pieces' : List Bytes} (h : Returned pieces pieces') :
    List.Forall₂ Bytes.Padded pieces.dropLast pieces'.dropLast := by
  rw [List.dropLast_eq_take, List.dropLast_eq_take, h.padded.length_eq]
  exact List.forall₂_take _ h.padded

/-- **The lines with the other line endings** have a blank behind them, or are
the same. -/
theorem forall₂_lines_crlf (input : Input) :
    List.Forall₂ Bytes.Padded input.lines input.crlf.lines := by
  have h := returned_split input.text
  unfold lines crlf
  dsimp only
  rw [h.getLast?_eq]
  split
  · exact h.padded_dropLast
  · exact h.padded

example :
    lines (crlf ⟨"a.c: A\nb.c:\n\n(", false⟩) = ["a.c: A\r", "b.c:\r", "\r", "("] := by
  decide

/-- The numbers of the lines are the same. -/
theorem forall₂_numberedLines_crlf (input : Input) :
    List.Forall₂ (fun l l' => l.1.Padded l'.1 ∧ l.2 = l'.2) input.numberedLines
      input.crlf.numberedLines := by
  refine (forall₂_numbered input.forall₂_lines_crlf 1 1).imp fun _ _ h => ?_
  obtain ⟨hpadded, k, hk, hk'⟩ := h
  exact ⟨hpadded, hk.trans hk'.symm⟩

end Input

/-! ## §5. Tables and conversions. -/

namespace TypeTable

theorem readLine_of_padded (t : TypeTable) {text text' : Bytes} (h : text.Padded text')
    (line : UInt32) : t.readLine text' line = t.readLine text line := by
  unfold readLine
  rw [h.stripComment_eq]

theorem foldlM_readLine_of_padded {ls ls' : List (Bytes × UInt32)}
    (h : List.Forall₂ (fun l l' => l.1.Padded l'.1 ∧ l.2 = l'.2) ls ls') :
    ∀ t : TypeTable,
      ls'.foldlM (fun t (text, line) => t.readLine text line) t
        = ls.foldlM (fun t (text, line) => t.readLine text line) t := by
  induction h with
  | nil => intro t; rfl
  | @cons l l' _ _ hl _ ih =>
      intro t
      obtain ⟨text, number⟩ := l
      obtain ⟨text', number'⟩ := l'
      obtain ⟨hpadded, rfl⟩ := hl
      rw [List.foldlM_cons, List.foldlM_cons]
      dsimp only
      rw [t.readLine_of_padded hpadded]
      exact bind_congr ih

/-- **A table of types** is the same with the other line endings, and so is
what is wrong with it. -/
theorem read_crlf (input : Input) : read input.crlf = read input := by
  unfold read
  rw [foldlM_readLine_of_padded input.forall₂_numberedLines_crlf]
  rfl

end TypeTable

namespace Conversion

/-- The conversions of a listing with the one and with the other line endings
are alike. -/
theorem alike_listing_crlf (erased : Name → Bool) (c : Conversion) (input : Input) :
    (c.listing erased input).1 = (c.listing erased input.crlf).1
      ∧ Alike Diagnostic.SameGrade c.diagnostics.toList (c.listing erased input).2
          (c.listing erased input.crlf).2 := by
  refine (Alike.refl _ c).listing (input.forall₂_numberedLines_crlf.imp fun l l' h => ?_) rfl
  obtain ⟨text, number⟩ := l
  obtain ⟨text', number'⟩ := l'
  obtain ⟨hpadded, rfl⟩ := h
  exact judgedAlike_of_padded erased hpadded number

/-- **Line endings do not matter.**  Put a carriage return in front of every
newline of a listing.  Its conversion ends as before, also when the reading
breaks off; it leaves the same store, the same records and counts, and as many
warnings and errors; and it writes the same table.  A table of types whose
newlines are treated like this declares the same types, or is refused with the
same error. -/
theorem listing_crlf (types : TypeTable) (c : Conversion) (input : Input) :
    (c.listing types.erases input.crlf).1 = (c.listing types.erases input).1
      ∧ (c.listing types.erases input.crlf).2.records = (c.listing types.erases input).2.records
      ∧ (c.listing types.erases input.crlf).2.stats = (c.listing types.erases input).2.stats
      ∧ (c.listing types.erases input.crlf).2.store = (c.listing types.erases input).2.store
      ∧ (c.listing types.erases input.crlf).2.warnings = (c.listing types.erases input).2.warnings
      ∧ (c.listing types.erases input.crlf).2.errors = (c.listing types.erases input).2.errors
      ∧ (c.listing types.erases input.crlf).2.model.write
            (c.listing types.erases input.crlf).2.store
          = (c.listing types.erases input).2.model.write (c.listing types.erases input).2.store
      ∧ TypeTable.read input.crlf = TypeTable.read input := by
  obtain ⟨hanswer, halike⟩ := alike_listing_crlf types.erases c input
  have hgrade : ∀ d d', Diagnostic.SameGrade d d' → d.severity = d'.severity := fun _ _ h => h.1
  refine ⟨hanswer.symm, halike.records.symm, halike.stats.symm, halike.store.symm,
    (halike.count_eq hgrade .warning).symm, (halike.count_eq hgrade .error).symm, ?_,
    TypeTable.read_crlf input⟩
  rw [halike.model_eq, halike.store]

end Conversion

end PresenceTable
