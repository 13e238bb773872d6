/-
  PresenceTable.Proofs.Token.Pieces
  ─────────────────────────────────
  **TEXTS THAT CAN BE SCANNED.**

  Scanning decides from the left, one symbol at a time, and never looks
  ahead by more than one byte.  What can be scanned is nevertheless easy to
  say: white space, the bytes of names and the signs `!`, `(` and `)` stand
  alone, and the bytes `&` and `|` stand in pairs.  No such piece is the
  beginning of another one, so there is one way only to put a text together
  from pieces, and scanning stops where no piece begins.

  Main results:
    * `LongestScannable.of_append` — how far a text can be scanned;
    * `exists_after_of_scan` — a symbol that is found, and what follows it;
    * `not_prefix_of_scan_error` — where no symbol is found, no piece begins.
-/
import Mathlib.Data.List.Basic
import PresenceTable.Proofs.Token.Spelling

namespace PresenceTable

/-! ## §1. Texts that can be scanned. -/

namespace Bytes

/-- The bytes that stand alone: white space, the bytes of names, and the
signs of one byte. -/
def standsAlone (b : UInt8) : Bool :=
  isSpace b || isWord b || b == '!'.toUInt8 || b == '('.toUInt8 || b == ')'.toUInt8

/-- The bytes that stand in pairs. -/
def standsInPairs (b : UInt8) : Bool := b == '&'.toUInt8 || b == '|'.toUInt8

/-- What texts that can be scanned are put together from. -/
inductive IsPiece : Bytes → Prop where
  | single {b : UInt8} (h : standsAlone b = true) : IsPiece [b]
  | pair {b : UInt8} (h : standsInPairs b = true) : IsPiece [b, b]

/-- The text is put together from pieces. -/
inductive Scannable : Bytes → Prop where
  | nil : Scannable []
  | cons {piece text : Bytes} (hpiece : IsPiece piece) (htext : Scannable text) :
      Scannable (piece ++ text)

/-- The longest front part of a text that can be scanned. -/
structure LongestScannable (part text : Bytes) : Prop where
  front : part <+: text
  scannable : part.Scannable
  longest : ∀ other : Bytes, other <+: text → other.Scannable → other.length ≤ part.length

theorem standsAlone_of_isSpace {b : UInt8} (h : isSpace b = true) : standsAlone b = true := by
  simp [standsAlone, h]

theorem standsAlone_of_isWord {b : UInt8} (h : isWord b = true) : standsAlone b = true := by
  simp [standsAlone, h]

theorem standsAlone_eq_false_of_standsInPairs {b : UInt8} (h : standsInPairs b = true) :
    standsAlone b = false := by
  simp only [standsInPairs, Bool.or_eq_true, beq_iff_eq] at h
  rcases h with rfl | rfl <;> decide

theorem Scannable.append {front text : Bytes} (hfront : front.Scannable)
    (htext : text.Scannable) : Scannable (front ++ text) := by
  induction hfront with
  | nil => exact htext
  | cons hpiece _ ih =>
      rw [List.append_assoc]
      exact .cons hpiece ih

theorem scannable_of_all {text : Bytes} (h : ∀ b ∈ text, standsAlone b = true) :
    text.Scannable := by
  induction text with
  | nil => exact .nil
  | cons b text ih =>
      have hb := h b List.mem_cons_self
      exact .cons (.single hb) (ih fun c hc => h c (List.mem_cons_of_mem b hc))

/-- **No piece is the beginning of another one.** -/
theorem IsPiece.eq_of_prefix {piece other : Bytes} (h : IsPiece piece) (hother : IsPiece other)
    (hbegins : piece <+: other) : piece = other := by
  cases h with
  | single hb =>
      cases hother with
      | single => rw [(List.cons_prefix_cons.1 hbegins).1]
      | pair hc =>
          rw [(List.cons_prefix_cons.1 hbegins).1,
            standsAlone_eq_false_of_standsInPairs hc] at hb
          cases hb
  | pair hb =>
      cases hother with
      | single =>
          obtain ⟨-, hrest⟩ := List.cons_prefix_cons.1 hbegins
          exact absurd (List.prefix_nil.1 hrest) (List.cons_ne_nil _ _)
      | pair => rw [(List.cons_prefix_cons.1 hbegins).1]

/-- A front part that can be scanned ends before the place where no piece
begins. -/
theorem Scannable.length_le {front rest : Bytes} (hfront : front.Scannable)
    (hrest : ∀ piece, IsPiece piece → ¬ piece <+: rest) :
    ∀ {other : Bytes}, other.Scannable → other <+: front ++ rest →
      other.length ≤ front.length := by
  induction hfront with
  | nil =>
      intro other hother hbegins
      cases hother with
      | nil => exact Nat.le_refl _
      | cons hpiece _ =>
          exact absurd ((List.prefix_append _ _).trans hbegins) (hrest _ hpiece)
  | @cons piece text hpiece _ ih =>
      intro other hother hbegins
      cases hother with
      | nil => exact Nat.zero_le _
      | @cons piece' text' hpiece' htext' =>
          rw [List.append_assoc] at hbegins
          -- both texts begin with a piece, so they begin with the same one
          have heq : piece = piece' := by
            rcases List.prefix_or_prefix_of_prefix (List.prefix_append piece (text ++ rest))
              ((List.prefix_append piece' text').trans hbegins) with h | h
            · exact hpiece.eq_of_prefix hpiece' h
            · exact (hpiece'.eq_of_prefix hpiece h).symm
          subst heq
          have hle := ih htext' ((List.prefix_append_right_inj piece).1 hbegins)
          rw [List.length_append, List.length_append]
          omega

/-- **How far a text can be scanned**: up to the place where no piece begins. -/
theorem LongestScannable.of_append {front rest : Bytes} (hfront : front.Scannable)
    (hrest : ∀ piece, IsPiece piece → ¬ piece <+: rest) :
    LongestScannable front (front ++ rest) where
  front := List.prefix_append front rest
  scannable := hfront
  longest _ hbegins hother := hfront.length_le hrest hother hbegins

theorem LongestScannable.unique {part other text : Bytes} (h : LongestScannable part text)
    (hother : LongestScannable other text) : other = part := by
  have hle := h.longest other hother.front hother.scannable
  have hge := hother.longest part h.front h.scannable
  exact (List.prefix_of_prefix_length_le hother.front h.front hle).eq_of_length_le hge

end Bytes

/-! ## §2. The symbol at the front of a text. -/

namespace Symbol

/-- The symbol that a text spells as a whole. -/
def ofText? (text : Bytes) : Option Symbol :=
  if text = "!" then some .bang
  else if text = "&&" then some .and
  else if text = "||" then some .or
  else if text = "(" then some .opening
  else if text = ")" then some .closing
  else if h : text ≠ [] ∧ text.all Bytes.isWord = true then some (.name ⟨text, h.1⟩)
  else none

theorem ofText?_name {n : Name} (hn : n.IsWord) : ofText? n.val = some (.name n) := by
  have hsign : ∀ sign : Bytes, sign.all Bytes.isWord = false → n.val ≠ sign := by
    rintro sign hsign rfl
    rw [List.all_eq_true.2 hn] at hsign
    cases hsign
  unfold ofText?
  rw [if_neg (hsign _ (by decide)), if_neg (hsign _ (by decide)), if_neg (hsign _ (by decide)),
    if_neg (hsign _ (by decide)), if_neg (hsign _ (by decide)),
    dif_pos ⟨n.property, List.all_eq_true.2 hn⟩]

/-- **A symbol that can be read back is the one that its text spells.** -/
theorem EndsBefore.ofText?_text {symbol : Symbol} {after : Bytes} (h : symbol.EndsBefore after) :
    ofText? symbol.text = some symbol := by
  cases symbol with
  | name n => exact ofText?_name h.1
  | bang | and | or | opening | closing => rfl

theorem EndsBefore.scannable {symbol : Symbol} {after : Bytes} (h : symbol.EndsBefore after) :
    symbol.text.Scannable := by
  cases symbol with
  | name n => exact Bytes.scannable_of_all fun b hb => Bytes.standsAlone_of_isWord (h.1 b hb)
  | bang => exact .cons (.single (by decide)) .nil
  | opening => exact .cons (.single (by decide)) .nil
  | closing => exact .cons (.single (by decide)) .nil
  | and => exact .cons (.pair (by decide)) .nil
  | or => exact .cons (.pair (by decide)) .nil

/-- A symbol that is found stands at the front, and it ends where the rest
begins. -/
theorem exists_after_of_scan {b : UInt8} {rest : Bytes} {symbol : Symbol}
    (h : scan b rest = .ok symbol) :
    ∃ after, b :: rest = symbol.text ++ after ∧ symbol.EndsBefore after := by
  have hword : ∀ n, symbol = .name n → n.IsWord := by
    rintro n rfl
    exact isWord_of_scan h
  unfold scan at h
  split_ifs at h with h₁ h₂ h₃ h₄ h₅ h₆ h₇ h₈ <;> cases h
  · exact ⟨rest, by rw [h₁]; rfl, trivial⟩
  · exact ⟨rest, by rw [h₂]; rfl, trivial⟩
  · exact ⟨rest, by rw [h₃]; rfl, trivial⟩
  · obtain ⟨after, rfl⟩ := List.head?_eq_some_iff.1 h₅
    exact ⟨after, by rw [h₄]; rfl, trivial⟩
  · obtain ⟨after, rfl⟩ := List.head?_eq_some_iff.1 h₇
    exact ⟨after, by rw [h₆]; rfl, trivial⟩
  · refine ⟨rest.dropWhile Bytes.isWord, ?_, hword _ rfl, ?_⟩
    · show b :: rest = (b :: rest.takeWhile _) ++ _
      rw [List.cons_append, List.takeWhile_append_dropWhile]
    · intro c hc
      have hstop := List.head?_dropWhile_not Bytes.isWord rest
      rw [hc] at hstop
      exact hstop

/-- Where a piece begins that is no white space, a symbol is found. -/
theorem exists_scan_of_isPiece {piece : Bytes} {b : UInt8} {rest : Bytes}
    (hpiece : Bytes.IsPiece piece) (hbegins : piece <+: b :: rest)
    (hb : Bytes.isSpace b = false) : ∃ symbol, scan b rest = .ok symbol := by
  cases hpiece with
  | @single c hc =>
      obtain ⟨rfl, -⟩ := List.cons_prefix_cons.1 hbegins
      have hpair : ∀ sign, Bytes.standsAlone sign = false → c ≠ sign := by
        rintro sign hsign rfl
        rw [hsign] at hc
        cases hc
      simp only [Bytes.standsAlone, hb, Bool.false_or, Bool.or_eq_true, beq_iff_eq] at hc
      unfold scan
      rw [if_neg (hpair '&'.toUInt8 (by decide)), if_neg (hpair '|'.toUInt8 (by decide))]
      split_ifs with hbang hopening hclosing hword
      · exact ⟨_, rfl⟩
      · exact ⟨_, rfl⟩
      · exact ⟨_, rfl⟩
      · exact ⟨_, rfl⟩
      · rcases hc with ((hc | hc) | hc) | hc
        · exact absurd hc hword
        · exact absurd hc hbang
        · exact absurd hc hopening
        · exact absurd hc hclosing
  | pair hc =>
      obtain ⟨rfl, hrest⟩ := List.cons_prefix_cons.1 hbegins
      obtain ⟨after, rfl⟩ := List.head?_eq_some_iff.1 (List.singleton_prefix_iff_head?_eq_some.1 hrest)
      simp only [Bytes.standsInPairs, Bool.or_eq_true, beq_iff_eq] at hc
      rcases hc with rfl | rfl
      · exact ⟨.and, rfl⟩
      · exact ⟨.or, rfl⟩

/-- Where no symbol is found, no piece begins. -/
theorem not_prefix_of_scan_error {b : UInt8} {rest : Bytes} {reason : SyntaxError.Reason}
    (hb : Bytes.isSpace b = false) (h : scan b rest = .error reason) :
    ∀ piece, Bytes.IsPiece piece → ¬ piece <+: b :: rest := by
  intro piece hpiece hbegins
  obtain ⟨symbol, hsymbol⟩ := exists_scan_of_isPiece hpiece hbegins hb
  rw [h] at hsymbol
  cases hsymbol

end Symbol

end PresenceTable
