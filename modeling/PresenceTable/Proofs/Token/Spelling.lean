/-
  PresenceTable.Proofs.Token.Spelling
  ───────────────────────────────────
  **THE SYMBOLS OF A TEXT.**

  `text.ScansTo word` says that the text, cut into tokens, gives the
  symbols `word` and comes to its end.  Neither the line nor the column at
  which the text stands plays a role, so texts can be put together from
  the back: one symbol, or one byte of white space, in front of a text
  whose symbols are known.

  A name goes on as far as there are word bytes.  A text that is to follow
  a name must therefore begin with another byte (`Symbol.EndsBefore`).

  Main results:
    * `ScansTo.cons` — one symbol more in front of a text;
    * `isWord_of_name_mem_tokens` — names that are read consist of word
      bytes.
-/
import Mathlib.Data.List.TakeWhile
import Mathlib.Tactic.SplitIfs
import PresenceTable.Proofs.Token.Cursor

namespace PresenceTable

/-- The tokens of the text are these symbols, up to its end. -/
def Bytes.ScansTo (text : Bytes) (word : List Symbol) : Prop :=
  ∀ (line : UInt32) (offset : Nat),
    (Cursor.mk line offset text).tokens.tokens.map Token.symbol = word
      ∧ ∃ position, (Cursor.mk line offset text).tokens.stop = .endOfText position

/-- A name in front of the text ends where the text begins. -/
def Bytes.EndsName (text : Bytes) : Prop := ∀ b ∈ text.head?, Bytes.isWord b = false

theorem Bytes.endsName_nil : Bytes.EndsName [] := by
  intro b hb
  cases hb

theorem Bytes.endsName_cons {b : UInt8} (hb : Bytes.isWord b = false) (text : Bytes) :
    Bytes.EndsName (b :: text) := by
  intro c hc
  cases hc
  exact hb

/-- All bytes of the name are word bytes. -/
def Name.IsWord (n : Name) : Prop := ∀ b ∈ n.val, Bytes.isWord b = true

instance Name.decidableIsWord (n : Name) : Decidable n.IsWord :=
  decidable_of_iff (n.val.all Bytes.isWord = true) List.all_eq_true

/-- The symbol is read back from its written form when this text follows it. -/
def Symbol.EndsBefore (after : Bytes) : Symbol → Prop
  | .name n => n.IsWord ∧ after.EndsName
  | .bang | .and | .or | .opening | .closing => True

/-! ## §1. The symbol in front of a text. -/

/-- A name that is followed by no word byte is found as a whole. -/
theorem Symbol.scan_name {n : Name} {b : UInt8} {rest after : Bytes} (hn : n.IsWord)
    (hafter : after.EndsName) (hcut : n.val ++ after = b :: rest) :
    Symbol.scan b rest = .ok (.name n) := by
  obtain ⟨bytes, hne⟩ := n
  cases bytes with
  | nil => exact absurd rfl hne
  | cons c cs =>
      obtain ⟨rfl, rfl⟩ : c = b ∧ cs ++ after = rest := List.cons.inj hcut
      have hc : Bytes.isWord c = true := hn c List.mem_cons_self
      have hcs : ∀ x ∈ cs, Bytes.isWord x = true :=
        fun x hx => hn x (List.mem_cons_of_mem _ hx)
      have hstop : after.takeWhile Bytes.isWord = [] := by
        cases after with
        | nil => rfl
        | cons x after => simp [hafter x rfl]
      -- the signs are no word bytes, so the first byte is none of them
      have hsign : ∀ sign : UInt8, Bytes.isWord sign = false → c ≠ sign := by
        rintro sign hsign rfl
        rw [hsign] at hc
        cases hc
      unfold Symbol.scan
      rw [if_neg (hsign _ (by decide)), if_neg (hsign _ (by decide)),
          if_neg (hsign _ (by decide)), if_neg (hsign _ (by decide)),
          if_neg (hsign _ (by decide)), if_pos hc]
      congr 3
      rw [List.takeWhile_append_of_pos hcs, hstop, List.append_nil]

/-- **A written symbol is found again**, and no white space comes before it. -/
theorem Symbol.scan_text {symbol : Symbol} {after : Bytes} (h : symbol.EndsBefore after) :
    ∃ b rest, symbol.text ++ after = b :: rest ∧ Bytes.isSpace b = false
      ∧ Symbol.scan b rest = .ok symbol := by
  cases symbol with
  | name n =>
      obtain ⟨b, rest, hcut⟩ := List.exists_cons_of_ne_nil
        (List.append_ne_nil_of_left_ne_nil n.property after)
      refine ⟨b, rest, hcut, ?_, Symbol.scan_name h.1 h.2 hcut⟩
      have hb : Bytes.isWord b = true := by
        cases hbytes : n.val with
        | nil => exact absurd hbytes n.property
        | cons c cs =>
            rw [hbytes, List.cons_append] at hcut
            rw [← (List.cons.inj hcut).1]
            exact h.1 c (hbytes ▸ List.mem_cons_self)
      cases hspace : Bytes.isSpace b with
      | false => rfl
      | true =>
          rw [Bytes.isWord_eq_false_of_isSpace hspace] at hb
          cases hb
  | bang => exact ⟨_, after, rfl, by decide, rfl⟩
  | and => exact ⟨_, _ :: after, rfl, by decide, rfl⟩
  | or => exact ⟨_, _ :: after, rfl, by decide, rfl⟩
  | opening => exact ⟨_, after, rfl, by decide, rfl⟩
  | closing => exact ⟨_, after, rfl, by decide, rfl⟩

/-! ## §2. Texts, from the back. -/

namespace Bytes

theorem ScansTo.nil : ScansTo [] [] := by
  intro line offset
  have hnext : (Cursor.mk line offset []).next
      = (.error (.endOfText (Cursor.mk line offset []).position), ⟨line, offset, []⟩) := rfl
  rw [Cursor.tokens_of_next_error hnext]
  exact ⟨rfl, _, rfl⟩

/-- White space in front of a text changes nothing. -/
theorem ScansTo.cons_space {b : UInt8} {text : Bytes} {word : List Symbol}
    (hb : isSpace b = true) (h : text.ScansTo word) : ScansTo (b :: text) word := by
  intro line offset
  have hskip : (Cursor.mk line offset (b :: text)).skipSpace
      = (Cursor.mk line (offset + 1) text).skipSpace := by
    simp [Cursor.skipSpace, Cursor.advance, hb, Nat.add_assoc, Nat.add_comm 1]
  have htokens : (Cursor.mk line offset (b :: text)).tokens
      = (Cursor.mk line (offset + 1) text).tokens := by
    rcases hnext : (Cursor.mk line (offset + 1) text).next with ⟨stop | t, after⟩
    · have hnext' : (Cursor.mk line offset (b :: text)).next = (.error stop, after) := by
        rw [← hnext, Cursor.next, Cursor.next, hskip]
      rw [Cursor.tokens_of_next_error hnext, Cursor.tokens_of_next_error hnext']
    · have hnext' : (Cursor.mk line offset (b :: text)).next = (.ok t, after) := by
        rw [← hnext, Cursor.next, Cursor.next, hskip]
      rw [Cursor.tokens_of_next_ok hnext, Cursor.tokens_of_next_ok hnext']
  rw [htokens]
  exact h line (offset + 1)

/-- **One symbol more in front of a text.** -/
theorem ScansTo.cons (symbol : Symbol) {after : Bytes} {word : List Symbol}
    (hends : symbol.EndsBefore after) (h : after.ScansTo word) :
    ScansTo (symbol.text ++ after) (symbol :: word) := by
  intro line offset
  obtain ⟨b, rest, hcut, hspace, hscan⟩ := Symbol.scan_text hends
  have hdrop : (b :: rest).drop symbol.text.length = after := by
    rw [← hcut, List.drop_left]
  have hnext : (Cursor.mk line offset (symbol.text ++ after)).next
      = (.ok ⟨symbol, (Cursor.mk line offset (b :: rest)).position⟩,
          ⟨line, offset + symbol.text.length, after⟩) := by
    have hskip : (Cursor.mk line offset (b :: rest)).skipSpace = ⟨line, offset, b :: rest⟩ := by
      simp [Cursor.skipSpace, Cursor.advance, hspace]
    rw [hcut, Cursor.next, hskip]
    simp only [Cursor.take, hscan, Cursor.advance, hdrop]
  obtain ⟨hword, hstop⟩ := h line (offset + symbol.text.length)
  rw [Cursor.tokens_of_next_ok hnext]
  refine ⟨?_, hstop⟩
  rw [List.map_cons, hword]

end Bytes

/-! ## §3. Names that are read. -/

theorem Symbol.isWord_of_scan {b : UInt8} {rest : Bytes} {n : Name}
    (h : Symbol.scan b rest = .ok (.name n)) : n.IsWord := by
  unfold Symbol.scan at h
  -- only the branch of word bytes answers with a name
  split_ifs at h with _ _ _ _ _ _ _ hb <;> cases h
  intro x hx
  rcases List.mem_cons.1 hx with rfl | hmem
  · exact hb
  · exact List.mem_takeWhile_imp hmem

theorem Cursor.isWord_of_take {c after : Cursor} {n : Name} {position : Position}
    (h : c.take = (.ok ⟨.name n, position⟩, after)) : n.IsWord := by
  unfold Cursor.take at h
  split at h
  · cases h
  · split at h
    · next hscan =>
      cases h
      exact Symbol.isWord_of_scan hscan
    · cases h

/-- **Names that are read consist of word bytes.** -/
theorem Cursor.isWord_of_name_mem_tokens {n : Name} (c : Cursor)
    (h : .name n ∈ c.tokens.tokens.map Token.symbol) : n.IsWord := by
  -- each token leaves fewer bytes, so the induction is on how many are left
  induction hk : c.rest.length using Nat.strongRecOn generalizing c with
  | ind k ih =>
      subst hk
      rcases hnext : c.next with ⟨stop | t, after⟩
      · rw [tokens_of_next_error hnext] at h
        exact absurd h List.not_mem_nil
      · rw [tokens_of_next_ok hnext, List.map_cons] at h
        rcases List.mem_cons.1 h with hname | hlater
        · obtain ⟨symbol, position⟩ := t
          cases hname
          exact isWord_of_take hnext
        · exact ih _ (length_rest_lt_of_next_ok hnext) after hlater rfl

end PresenceTable
