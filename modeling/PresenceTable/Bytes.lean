/-
  PresenceTable.Bytes
  ───────────────────
  **BYTE STRINGS.**

  A listing, a table of types and every message are plain bytes here: no
  encoding is assumed, columns count bytes, and texts are ordered byte by
  byte.  This file fixes the byte classes the formats use and the few ways
  in which they cut a text into parts.

  Main results:
    * `isWord_eq_false_of_isSpace` — white space never belongs to a name;
    * `split_cons_of_separates` / `split_cons_of_not_separates` — how
      cutting at separators goes on by one byte;
    * `occursIn_iff` — the executable substring test is the infix relation.
-/

namespace PresenceTable

/-- A text, as the bytes it is made of. -/
abbrev Bytes := List UInt8

namespace Bytes

/-- The bytes of a literal. -/
def ofString (s : String) : Bytes := s.toByteArray.data.toList

instance : Coe String Bytes := ⟨ofString⟩

/-- A number in decimal digits. -/
def decimal (n : Nat) : Bytes := (Nat.toDigits 10 n).map Char.toUInt8

/-- An integer in decimal digits, with a minus sign if it is negative. -/
def decimalInt : Int → Bytes
  | .ofNat n => decimal n
  | .negSucc n => "-" ++ decimal (n + 1)

/-- What remains of a text that is handed on as a NUL-terminated one: the
bytes before its first NUL. -/
def untilNul (s : Bytes) : Bytes := s.takeWhile (· != 0)

/-! ## §1. Byte classes. -/

/-- White space inside a condition and between the fields of a
declaration: space, tab, newline, vertical tab, form feed and carriage
return. -/
def isSpace (b : UInt8) : Bool := b == 32 || (9 ≤ b && b ≤ 13)

/-- What is trimmed off the ends of a line: space, tab, newline and
carriage return, but neither vertical tab nor form feed. -/
def isBlank (b : UInt8) : Bool := b == 32 || b == 9 || b == 10 || b == 13

/-- The bytes of a variable's name: ASCII letters, digits and the
underscore. -/
def isWord (b : UInt8) : Bool :=
  (48 ≤ b && b ≤ 57) || (65 ≤ b && b ≤ 90) || b == 95 || (97 ≤ b && b ≤ 122)

/-- Whatever is trimmed at the end of a line is white space within it. -/
theorem isSpace_of_isBlank {b : UInt8} (h : isBlank b = true) : isSpace b = true := by
  simp only [isBlank, isSpace, Bool.or_eq_true, beq_iff_eq] at h ⊢
  rcases h with ((rfl | rfl) | rfl) | rfl <;> decide

/-- White space is never part of a name. -/
theorem isWord_eq_false_of_isSpace {b : UInt8} (h : isSpace b = true) : isWord b = false := by
  simp only [isSpace, Bool.or_eq_true, beq_iff_eq, Bool.and_eq_true, decide_eq_true_eq,
    UInt8.le_iff_toNat_le] at h
  rcases h with rfl | ⟨_, h⟩
  · decide
  · have hb : b.toNat ≤ 13 := h
    have h95 : b ≠ 95 := by
      rintro rfl
      exact absurd hb (by decide)
    simp [isWord, UInt8.le_iff_toNat_le, h95]
    omega

/-! ## §2. Trimming and comments. -/

/-- A text without the blanks at its two ends. -/
def trim (s : Bytes) : Bytes :=
  ((s.dropWhile isBlank).reverse.dropWhile isBlank).reverse

/-- A line without its comment, which begins at the first '#', and without
the blanks at the ends of what is left. -/
def stripComment (s : Bytes) : Bytes := trim (s.takeWhile (· != '#'.toUInt8))

/-! ## §3. Cutting at separators. -/

/-- The pieces between the separators of a text.  There is always at least
one piece, and two separators in a row enclose an empty one. -/
def split (separates : UInt8 → Bool) (s : Bytes) : List Bytes :=
  s.foldr
    (fun b pieces =>
      if separates b then [] :: pieces
      else
        match pieces with
        | [] => [[b]]
        | piece :: later => (b :: piece) :: later)
    [[]]

@[simp] theorem split_nil (separates : UInt8 → Bool) : split separates [] = [[]] := rfl

theorem split_cons_of_separates {separates : UInt8 → Bool} {b : UInt8} (h : separates b = true)
    (s : Bytes) : split separates (b :: s) = [] :: split separates s := by
  simp [split, h]

theorem split_ne_nil (separates : UInt8 → Bool) (s : Bytes) : split separates s ≠ [] := by
  cases s with
  | nil => simp
  | cons b s =>
      simp only [split, List.foldr_cons]
      split
      · simp
      · split <;> simp

/-- A byte that separates nothing joins the first piece of the rest. -/
theorem split_cons_of_not_separates {separates : UInt8 → Bool} {b : UInt8}
    (h : separates b = false) (s : Bytes) :
    split separates (b :: s)
      = (b :: (split separates s).head (split_ne_nil separates s))
          :: (split separates s).tail := by
  have hne := split_ne_nil separates s
  simp only [split, List.foldr_cons, h, Bool.false_eq_true, if_false] at hne ⊢
  split
  · next h' => exact absurd h' hne
  · next h' => simp [h']

theorem split_cons_of_eq {separates : UInt8 → Bool} {b : UInt8} (hb : separates b = false)
    {s piece : Bytes} {later : List Bytes} (h : split separates s = piece :: later) :
    split separates (b :: s) = (b :: piece) :: later := by
  rw [split_cons_of_not_separates hb]
  simp only [h, List.head_cons, List.tail_cons]

/-- The maximal runs of bytes that are not white space. -/
def fields (s : Bytes) : List Bytes := (split isSpace s).filter (! ·.isEmpty)

/-! ## §4. Looking for a text inside another. -/

/-- Whether the pattern stands anywhere in the text. -/
def occursIn (pattern : Bytes) : Bytes → Bool
  | [] => pattern.isEmpty
  | b :: s => pattern.isPrefixOf (b :: s) || occursIn pattern s

theorem occursIn_iff (pattern s : Bytes) : occursIn pattern s = true ↔ pattern <:+: s := by
  induction s with
  | nil => simp [occursIn]
  | cons b s ih => simp [occursIn, ih, List.infix_cons_iff]

end Bytes

end PresenceTable
