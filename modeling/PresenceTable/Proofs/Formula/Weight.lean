/-
  PresenceTable.Proofs.Formula.Weight
  ───────────────────────────────────
  **WHAT A CONDITION WEIGHS.**

  Each name and each sign of a condition takes room in its text: a name or
  a negation sign at least one byte, the signs of conjunctions and
  disjunctions two.  The weight of a tree counts these bytes, so a text is
  at least as long as the tree that it spells is heavy.  It is also as long
  as the operands together that are left of it when it is refused, since
  these were read from different parts of it.

  Main results:
    * `Formula.SpelledBy.weight_le` — a text against its tree;
    * `Formula.totalWeight_le_of_refused` — a refused text against what is
      left of it.
-/
import Mathlib.Tactic.SplitIfs
import PresenceTable.Proofs.Formula.Reading

namespace PresenceTable

/-! ## §1. Weights and lengths. -/

namespace Formula

/-- The bytes that names and signs take at least. -/
def weight : Formula → Nat
  | .bot | .var _ => 1
  | .neg f => f.weight + 1
  | .conj f g | .disj f g => f.weight + g.weight + 2

/-- The number of conjunctions and disjunctions. -/
def forks : Formula → Nat
  | .bot | .var _ => 0
  | .neg f => f.forks
  | .conj f g | .disj f g => f.forks + g.forks + 1

/-- The weight of several conditions together. -/
def totalWeight : List Formula → Nat
  | [] => 0
  | f :: fs => f.weight + totalWeight fs

@[simp] theorem totalWeight_nil : totalWeight [] = 0 := rfl

@[simp] theorem totalWeight_cons (f : Formula) (fs : List Formula) :
    totalWeight (f :: fs) = f.weight + totalWeight fs :=
  rfl

@[simp] theorem totalWeight_append (fs gs : List Formula) :
    totalWeight (fs ++ gs) = totalWeight fs + totalWeight gs := by
  induction fs with
  | nil => simp
  | cons f fs ih => simp [ih, Nat.add_assoc]

end Formula

namespace Symbol

/-- The number of bytes with which symbols are written. -/
def totalLength (word : List Symbol) : Nat := (word.flatMap text).length

@[simp] theorem totalLength_nil : totalLength [] = 0 := rfl

@[simp] theorem totalLength_cons (s : Symbol) (word : List Symbol) :
    totalLength (s :: word) = s.text.length + totalLength word := by
  simp [totalLength]

@[simp] theorem totalLength_append (word later : List Symbol) :
    totalLength (word ++ later) = totalLength word + totalLength later := by
  simp [totalLength]

@[simp] theorem length_text_bang : bang.text.length = 1 := by decide

@[simp] theorem length_text_and : Symbol.and.text.length = 2 := by decide

@[simp] theorem length_text_or : Symbol.or.text.length = 2 := by decide

end Symbol

open Formula Reading PresenceTable.Symbol

/-- **A phrase is as long as its tree is heavy**, or longer. -/
theorem Derives.weight_le {rank : Rank} {word : List Symbol} {f : Formula}
    (h : Derives rank word f) : f.weight ≤ totalLength word := by
  induction h with
  | name n =>
      have hpos := List.length_pos_iff.2 n.property
      rw [totalLength_cons, totalLength_nil]
      show 1 ≤ n.val.length + 0
      omega
  | paren _ ih =>
      simp only [totalLength_cons, totalLength_append]
      omega
  | ofPrimary _ ih | ofUnary _ ih | ofConjunction _ ih => exact ih
  | bang _ ih =>
      simp only [weight, totalLength_cons, length_text_bang]
      omega
  | and _ _ ihf ihg =>
      simp only [weight, totalLength_append, totalLength_cons, length_text_and]
      omega
  | or _ _ ihf ihg =>
      simp only [weight, totalLength_append, totalLength_cons, length_text_or]
      omega

/-! ## §2. What is pending in a reading. -/

theorem Pending.totalWeight_le {rank : Rank} {sign : Symbol} {pending : Option Formula}
    {word : List Symbol} (h : Pending rank sign pending word) :
    totalWeight pending.toList ≤ totalLength word := by
  cases pending with
  | none => exact Nat.zero_le _
  | some f =>
      obtain ⟨left, rfl, hf⟩ := h
      have hle := hf.weight_le
      show f.weight + 0 ≤ _
      rw [totalLength_append]
      omega

theorem Level.Spells.totalWeight_le {level : Level Formula} {word : List Symbol}
    (h : level.Spells word) : totalWeight level.finished ≤ totalLength word := by
  obtain ⟨left, middle, hleft, hmiddle, rfl⟩ := h
  have hl := hleft.totalWeight_le
  have hm := hmiddle.totalWeight_le
  unfold finished
  simp only [totalWeight_append, totalLength_append]
  omega

theorem Encloses.totalWeight_le {levels : List (Level Formula)} :
    ∀ {word : List Symbol}, Encloses levels word →
      totalWeight (finishedOperands levels) ≤ totalLength word := by
  induction levels with
  | nil => intro word _; exact Nat.zero_le _
  | cons level outer ih =>
      intro word h
      obtain ⟨before, inside, hbefore, hinside, rfl⟩ := h
      have ho := ih hbefore
      have hi := hinside.totalWeight_le
      rw [finishedOperands_cons]
      simp only [totalWeight_append, totalLength_append]
      omega

/-- What has been finished where an operand is wanted. -/
theorem totalWeight_le_of_wanting {level : Level Formula} {enclosing : List (Level Formula)}
    {word : List Symbol} (h : (wanting level enclosing).Spells word) :
    totalWeight (finishedOperands (level :: enclosing)) ≤ totalLength word := by
  obtain ⟨before, inside, hbefore, hinside, rfl⟩ := h
  have hb := hbefore.totalWeight_le
  have hi := hinside.totalWeight_le
  rw [finishedOperands_cons]
  simp only [totalWeight_append, totalLength_append]
  omega

/-- What has been finished where an operand was read, whether or not it is
joined with what stands left of it. -/
theorem totalWeight_le_of_having {disjunct : Option Formula} {operand : Formula}
    {enclosing : List (Level Formula)} {word : List Symbol}
    (h : (having disjunct operand enclosing).Spells word) :
    totalWeight (finishedOperands enclosing ++ [join disjunct operand]) ≤ totalLength word
      ∧ totalWeight (finishedOperands enclosing ++ disjunct.toList ++ [operand])
          ≤ totalLength word := by
  obtain ⟨before, left, right, hbefore, hleft, hright, rfl⟩ := h
  have hb := hbefore.totalWeight_le
  have hl := hleft.totalWeight_le
  have hr := hright.weight_le
  have hj := (derives_join hleft hright).weight_le
  simp only [totalWeight_append, totalWeight_cons, totalWeight_nil, totalLength_append] at hj ⊢
  omega

/-! ## §3. What is left of a refused text. -/

theorem totalWeight_le_of_step {reading : Reading Formula} {t : Token} {refusal : Refusal}
    {word : List Symbol} (hspells : reading.Spells word)
    (h : reading.step t = .error refusal) :
    totalWeight refusal.finished ≤ totalLength word := by
  obtain ⟨symbol, position⟩ := t
  cases reading with
  | wanting level enclosing =>
      have hle := totalWeight_le_of_wanting hspells
      cases symbol <;> cases h <;> exact hle
  | having disjunct operand enclosing =>
      obtain ⟨hle, -⟩ := totalWeight_le_of_having hspells
      cases symbol <;> cases enclosing <;> cases h <;> exact hle

theorem totalWeight_le_of_finish {reading : Reading Formula} {stop : Stop} {refusal : Refusal}
    {word : List Symbol} (hspells : reading.Spells word)
    (h : reading.finish stop = .error refusal) :
    totalWeight refusal.finished ≤ totalLength word := by
  cases reading with
  | wanting level enclosing =>
      have hle := totalWeight_le_of_wanting hspells
      cases stop <;> cases h <;> exact hle
  | having disjunct operand enclosing =>
      obtain ⟨hjoined, hapart⟩ := totalWeight_le_of_having hspells
      cases stop with
      | failure error => cases h; exact hapart
      | endOfText position =>
          cases enclosing with
          | nil => cases h
          | cons level outer => cases h; exact hjoined

theorem totalWeight_le_of_feed {tokens : List Token} :
    ∀ {reading : Reading Formula} {word : List Symbol} {refusal : Refusal}, reading.Spells word →
      reading.feed tokens = .error refusal →
        totalWeight refusal.finished ≤ totalLength (word ++ tokens.map Token.symbol) := by
  induction tokens with
  | nil => intro reading word refusal _ h; cases h
  | cons t tokens ih =>
      intro reading word refusal hspells h
      rw [feed_cons] at h
      cases hstep : reading.step t with
      | error refused =>
          rw [hstep] at h
          cases h
          have hle := totalWeight_le_of_step hspells hstep
          rw [totalLength_append]
          omega
      | ok next =>
          rw [hstep] at h
          have hnext := (step_eq_ok_iff.1 hstep).spells hspells
          rw [List.map_cons, List.append_cons]
          exact ih hnext h

theorem totalWeight_le_of_ofTokens {stream : TokenStream} {refusal : Refusal}
    (h : Formula.ofTokens stream = .error refusal) :
    totalWeight refusal.finished ≤ totalLength (stream.tokens.map Token.symbol) := by
  unfold Formula.ofTokens at h
  rw [run_eq] at h
  cases hfeed : Reading.start.feed stream.tokens with
  | error refused =>
      rw [hfeed] at h
      cases h
      exact totalWeight_le_of_feed spells_start hfeed
  | ok reading =>
      rw [hfeed] at h
      exact totalWeight_le_of_finish (spells_feed spells_start hfeed) h

/-! ## §4. The length of a text. -/

/-- A symbol is not longer than the text that it begins. -/
theorem Symbol.length_text_le_of_scan {b : UInt8} {rest : Bytes} {symbol : Symbol}
    (h : Symbol.scan b rest = .ok symbol) : symbol.text.length ≤ (b :: rest).length := by
  have hdouble : rest.head? = some b → 2 ≤ (b :: rest).length := by
    intro hhead
    cases rest with
    | nil => cases hhead
    | cons c rest => exact Nat.le_add_left 2 rest.length
  have hsingle : 1 ≤ (b :: rest).length := Nat.le_add_left 1 rest.length
  unfold Symbol.scan at h
  split_ifs at h with _ _ _ _ hand _ hor _ <;> cases h
  · exact hsingle
  · exact hsingle
  · exact hsingle
  · exact hdouble hand
  · exact hdouble hor
  · exact Nat.succ_le_succ (List.takeWhile_sublist _).length_le

/-- A token and what follows it lie in the text. -/
theorem Cursor.length_text_add_le_of_next {c after : Cursor} {t : Token}
    (h : c.next = (.ok t, after)) :
    t.symbol.text.length + after.rest.length ≤ c.rest.length := by
  have hskip := c.length_rest_skipSpace_le
  unfold next take at h
  split at h
  · cases h
  · next b rest hrest =>
    split at h
    · next symbol hscan =>
      cases h
      have hle := Symbol.length_text_le_of_scan hscan
      rw [length_rest_advance, hrest]
      rw [hrest] at hskip
      dsimp only
      omega
    · cases h

/-- **The tokens of a text are not longer than the text.** -/
theorem Cursor.totalLength_tokens_le (c : Cursor) :
    totalLength (c.tokens.tokens.map Token.symbol) ≤ c.rest.length := by
  -- each token leaves fewer bytes, so the induction is on how many are left
  induction hk : c.rest.length using Nat.strongRecOn generalizing c with
  | ind k ih =>
      subst hk
      rcases hnext : c.next with ⟨stop | t, after⟩
      · rw [tokens_of_next_error hnext]
        exact Nat.zero_le _
      · have hfirst := length_text_add_le_of_next hnext
        have hlater := ih _ (length_rest_lt_of_next_ok hnext) after rfl
        rw [tokens_of_next_ok hnext, List.map_cons, totalLength_cons]
        omega

namespace Formula

/-- **A text is as long as its tree is heavy**, or longer. -/
theorem SpelledBy.weight_le {f : Formula} {text : Bytes} (h : f.SpelledBy text) :
    f.weight ≤ text.length :=
  Nat.le_trans h.2.weight_le (Cursor.totalLength_tokens_le (Cursor.start text 1))

/-- **A refused text** against the operands that were finished. -/
theorem totalWeight_le_of_refused {text : Bytes} {line : UInt32} {refusal : Refusal}
    (h : Formula.ofText text line = .error refusal) :
    totalWeight refusal.finished ≤ text.length :=
  Nat.le_trans (totalWeight_le_of_ofTokens h)
    (Cursor.totalLength_tokens_le (Cursor.start text line))

end Formula

end PresenceTable
