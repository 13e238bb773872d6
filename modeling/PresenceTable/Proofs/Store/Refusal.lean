/-
  PresenceTable.Proofs.Store.Refusal
  ──────────────────────────────────
  **ERRORS STAND LEFTMOST.**

  Whether a text is refused, and why, is decided at one place: where no
  symbol begins, if the text up to there is the beginning of a sentence, and
  otherwise at the first symbol with which it is not.  What the store holds
  plays no role in this, nor does what stands behind the place.

  The last point is about bytes.  A symbol is cut off in the same way when
  other bytes follow it, provided that it ends in front of them, and so is
  everything in front of the symbol.

  Main results:
    * `Cut.replace_after` — other bytes behind a symbol;
    * `exists_marks_of_take` — the same in terms of marks;
    * `read_error_leftmost` — where a text is refused, and as what.
-/
import PresenceTable.Proofs.Formula.ViablePrefix
import PresenceTable.Proofs.Store.Read
import PresenceTable.Proofs.Token.Tiling

namespace PresenceTable

/-! ## §1. Other bytes behind a symbol. -/

theorem Symbol.EndsBefore.of_head?_eq {symbol : Symbol} {after other : Bytes}
    (h : symbol.EndsBefore after) (hhead : other.head? = after.head?) :
    symbol.EndsBefore other := by
  cases symbol with
  | name n =>
      refine ⟨h.1, fun b hb => ?_⟩
      rw [hhead] at hb
      exact h.2 b hb
  | bang | and | or | opening | closing => trivial

namespace Cut

variable {offset final : Nat} {text : Bytes} {symbols : List PlacedSymbol}
  {reason : Option SyntaxError.Reason}

theorem text_ne_nil (h : Cut offset text symbols final reason) (hsymbols : symbols ≠ []) :
    text ≠ [] := by
  cases h with
  | endOfText | failure => exact absurd rfl hsymbols
  | @symbol _ _ symbol =>
      have hne := symbol.text_ne_nil
      simp [hne]

/-- **A symbol is cut off in the same way when other bytes follow it**, as long
as it ends there, and so is everything in front of it. -/
theorem replace_after {p : PlacedSymbol} {later : List PlacedSymbol} {rest : Bytes}
    (hrest : p.symbol.EndsBefore rest) (h : Cut offset text symbols final reason) :
    ∀ {front : List PlacedSymbol}, symbols = front ++ p :: later →
      ∃ later' final' reason',
        Cut offset (text.take (p.finish - offset) ++ rest) (front ++ p :: later') final'
          reason' := by
  induction h with
  | endOfText | failure => intro front hfront; cases front <;> cases hfront
  | @symbol offset space symbol after others final reason hspace hends hothers ih =>
      intro front hfront
      cases front with
      | nil =>
          cases hfront
          obtain ⟨later', final', reason', hcut⟩ :=
            exists_cut rest (offset + space.length + symbol.text.length)
          refine ⟨later', final', reason', ?_⟩
          have hlength : PlacedSymbol.finish ⟨offset + space.length, symbol⟩ - offset
              = (space ++ symbol.text).length := by
            simp only [PlacedSymbol.finish, List.length_append]
            omega
          rw [hlength, ← List.append_assoc, List.take_left, List.append_assoc]
          exact .symbol hspace hrest hcut
      | cons q front =>
          obtain ⟨rfl, rfl⟩ := List.cons.inj hfront
          obtain ⟨later', final', reason', hcut⟩ := ih rfl
          refine ⟨later', final', reason', ?_⟩
          have hoffset := hothers.offset_le p (by simp)
          have hpos := List.length_pos_iff.2 p.symbol.text_ne_nil
          obtain ⟨k, hk⟩ : ∃ k, p.finish - (offset + space.length + symbol.text.length) = k + 1 :=
            Nat.exists_eq_succ_of_ne_zero (by rw [PlacedSymbol.finish]; omega)
          have hlength : p.finish - offset = (space ++ symbol.text).length + (k + 1) := by
            rw [List.length_append]
            omega
          -- what follows the first symbol still begins with the same byte
          obtain ⟨b, bytes, rfl⟩ := List.exists_cons_of_ne_nil (hothers.text_ne_nil (by simp))
          rw [hk] at hcut
          rw [hlength, ← List.append_assoc, List.take_length_add_append, List.append_assoc,
            List.append_assoc]
          exact .symbol hspace (hends.of_head?_eq rfl) hcut

end Cut

/-! ## §2. The places of marks. -/

/-- The place is on the line, at a byte of the text or at its end. -/
structure Position.IsIn (position : Position) (text : Bytes) (line : UInt32) : Prop where
  line : position.line = line
  first : 1 ≤ position.column.toNat
  last : position.column.toNat ≤ text.length + 1

theorem Position.isIn_of_offset {text : Bytes} {offset : Nat} (line : UInt32)
    (hlen : text.length < UInt32.size - 1) (h : offset ≤ text.length) :
    Position.IsIn ⟨line, UInt32.ofNat (offset + 1)⟩ text line := by
  have hcolumn : (UInt32.ofNat (offset + 1)).toNat = offset + 1 :=
    UInt32.toNat_ofNat_of_lt' (by omega)
  exact ⟨rfl, by simp only [hcolumn]; omega, by simp only [hcolumn]; omega⟩

namespace TokenStream

variable {text : Bytes} {line : UInt32}

/-- **Every mark of a text stands in it**, and so does the error if there is
a place where no symbol begins. -/
theorem isIn_ofText (line : UInt32) (hlen : text.length < UInt32.size - 1) :
    (∀ mark ∈ (ofText text line).marks, mark.position.IsIn text line)
      ∧ ∀ lexical, (ofText text line).stop = .failure lexical →
          lexical.position.IsIn text line := by
  obtain ⟨symbols, final, reason, hcut⟩ := exists_cut text 0
  obtain ⟨front, rest, htext, -, hfinal, -⟩ := hcut.exists_front
  have hle : final ≤ text.length := by
    rw [htext, List.length_append]
    omega
  rw [hcut.ofText_eq]
  constructor
  · intro mark hmark
    rcases List.mem_append.1 hmark with htoken | hstop
    · obtain ⟨t, ht, rfl⟩ := List.mem_map.1 htoken
      obtain ⟨p, hp, rfl⟩ := List.mem_map.1 ht
      obtain ⟨hlt, hle'⟩ := (hcut.standsIn_text p hp).finish_le
      exact Position.isIn_of_offset line hlen (by omega)
    · cases reason with
      | some reason => cases hstop
      | none =>
          obtain rfl := List.mem_singleton.1 hstop
          exact Position.isIn_of_offset line hlen hle
  · intro lexical hlexical
    cases reason with
    | none => cases hlexical
    | some reason =>
        cases hlexical
        exact Position.isIn_of_offset line hlen hle

/-- **Marks do not depend on what stands behind them.**  When the bytes behind
a symbol are replaced, so that the symbol still ends there, it remains where it
is, with the same marks in front of it. -/
theorem exists_marks_of_take {before after : List Mark} {mark : Mark} {symbol : Symbol}
    {rest : Bytes} (hlen : text.length < UInt32.size - 1)
    (hmarks : (ofText text line).marks = before ++ mark :: after)
    (hsymbol : mark.symbol = some symbol) (hrest : symbol.EndsBefore rest) :
    ∃ after', (ofText (text.take (mark.position.column.toNat - 1 + symbol.text.length) ++ rest)
      line).marks = before ++ mark :: after' := by
  obtain ⟨tokens, t, later, htokens, rfl, rfl⟩ := exists_tokens_of_marks hsymbol before _ hmarks
  obtain ⟨symbols, final, reason, hcut⟩ := exists_cut text 0
  rw [hcut.ofText_eq] at htokens
  obtain ⟨front, others, rfl, rfl, hothers⟩ := List.map_eq_append_iff.1 htokens
  obtain ⟨p, others, rfl, rfl, rfl⟩ := List.map_eq_cons_iff.1 hothers
  cases hsymbol
  -- the column tells where the symbol ends, as the text is short enough
  have hp := (hcut.standsIn_text p (by simp)).finish_le
  have hcolumn : (p.token line).position.column.toNat = p.offset + 1 :=
    p.toNat_column_token line (by omega)
  have hfinish : (p.token line).mark.position.column.toNat - 1 + p.symbol.text.length
      = p.finish - 0 := by
    show (p.token line).position.column.toNat - 1 + _ = _
    rw [hcolumn]
    rfl
  obtain ⟨later', final', reason', hcut'⟩ := hcut.replace_after hrest rfl
  show ∃ after', (ofText (text.take (_ - 1 + p.symbol.text.length) ++ rest) line).marks = _
  rw [hfinish, hcut'.ofText_eq]
  exact ⟨(later'.map (·.token line)).map Token.mark ++ (Stop.behind line final' reason').marks,
    by simp [marks]⟩

end TokenStream

/-! ## §3. Where a text is refused. -/

namespace Store

theorem read_eq_error_iff {s : Store} {text : Bytes} {line : UInt32} {error : SyntaxError} :
    (s.read text line).1 = .error error
      ↔ ∃ refusal, Formula.ofText text line = .error refusal ∧ refusal.error = error := by
  rw [read_eq_take]
  cases Formula.ofText text line with
  | ok f => exact iff_of_false (by rintro ⟨⟩) (by rintro ⟨_, ⟨⟩, _⟩)
  | error refusal =>
      constructor
      · rintro ⟨⟩
        exact ⟨refusal, rfl, rfl⟩
      · rintro ⟨_, ⟨⟩, rfl⟩
        rfl

/-- **Errors stand leftmost.**  A text whose symbols are the beginning of a
sentence up to a place where no symbol begins is refused for what is wrong
there.  Any other text that is refused is refused at the first mark with which
it is the beginning of no sentence, the end of the text being a mark; and it is
refused in the same way, by any store, whatever stands behind that mark.  The
place is on the given line, and in the text or at its end. -/
theorem read_error_leftmost (s : Store) (text : Bytes) (line : UInt32) {error : SyntaxError}
    (hlen : text.length < UInt32.size - 1) (h : (s.read text line).1 = .error error) :
    (∀ lexical, (TokenStream.ofText text line).stop = .failure lexical →
        Viable (TokenStream.ofText text line).marks → error = lexical)
      ∧ ((¬ ∃ lexical, (TokenStream.ofText text line).stop = .failure lexical
            ∧ Viable (TokenStream.ofText text line).marks) →
          ∃ before mark after, RefusedAt (TokenStream.ofText text line).marks before mark after
            ∧ error.position = mark.position
            ∧ (∀ (other : Store) (text' : Bytes) (after' : List Mark),
                (TokenStream.ofText text' line).marks = before ++ mark :: after' →
                  (other.read text' line).1 = .error error)
            ∧ ∀ symbol, mark.symbol = some symbol → ∀ (other : Store) (rest : Bytes),
                symbol.EndsBefore rest →
                  (other.read (text.take (error.position.column.toNat - 1 + symbol.text.length)
                    ++ rest) line).1 = .error error)
      ∧ error.position.line = line ∧ 1 ≤ error.position.column.toNat
      ∧ error.position.column.toNat ≤ text.length + 1 := by
  obtain ⟨refusal, hrefusal, rfl⟩ := read_eq_error_iff.1 h
  obtain ⟨hmarks, hlexical⟩ := TokenStream.isIn_ofText line hlen
  rcases Formula.ofTokens_eq_error hrefusal with ⟨hviable, hstop⟩ | ⟨before, mark, after, hat, hstands⟩
  · have hin := hlexical _ hstop
    refine ⟨fun lexical hfailure _ => ?_, fun hnone => absurd ⟨_, hstop, hviable⟩ hnone,
      hin.line, hin.first, hin.last⟩
    rw [hstop] at hfailure
    exact Stop.failure.inj hfailure
  · have hin := hmarks mark (by rw [hat.cut]; simp)
    rw [hstands.position]
    have hsame : ∀ (other : Store) (text' : Bytes) (after' : List Mark),
        (TokenStream.ofText text' line).marks = before ++ mark :: after' →
          (other.read text' line).1 = .error refusal.error :=
      fun _ _ after' h' => read_eq_error_iff.2 ⟨refusal, hstands.determined _ after' h', rfl⟩
    refine ⟨fun lexical _ hviable => absurd hviable hat.not_viable,
      fun _ => ⟨before, mark, after, hat, rfl, hsame, ?_⟩, hin.line, hin.first, hin.last⟩
    intro symbol hsymbol other rest hrest
    obtain ⟨after', hafter'⟩ := TokenStream.exists_marks_of_take hlen hat.cut hsymbol hrest
    exact hsame other _ after' hafter'

/-- A closing parenthesis where an operand is wanted, and a byte behind it with
which no symbol begins: the parenthesis is what is reported, also when other
bytes follow it. -/
theorem read_error_leftmost_in_parentheses :
    (empty.read "A && (B || ) $" 7).1 = .error ⟨⟨7, 12⟩, .unexpected .closing⟩
      ∧ (∃ before after, RefusedAt (TokenStream.ofText "A && (B || ) $" 7).marks before
          ⟨some .closing, ⟨7, 12⟩⟩ after)
      ∧ (empty.read "A && (B || )C" 7).1 = .error ⟨⟨7, 12⟩, .unexpected .closing⟩ := by
  have hread : (empty.read "A && (B || ) $" 7).1 = .error ⟨⟨7, 12⟩, .unexpected .closing⟩ := by
    decide +kernel
  obtain ⟨hlexical, hrefused, -⟩ :=
    read_error_leftmost empty "A && (B || ) $" 7 (by decide) hread
  have hstop : (TokenStream.ofText "A && (B || ) $" 7).stop
      = .failure ⟨⟨7, 14⟩, .strayByte '$'.toUInt8⟩ := by decide +kernel
  obtain ⟨before, mark, after, hat, hposition, -, hbytes⟩ := hrefused <| by
    rintro ⟨lexical, hfailure, hviable⟩
    have heq := hlexical lexical hfailure hviable
    rw [hstop, ← heq] at hfailure
    cases hfailure
  have hmark : mark = ⟨some .closing, ⟨7, 12⟩⟩ := by
    have hall : ∀ m ∈ (TokenStream.ofText "A && (B || ) $" 7).marks,
        m.position = ⟨7, 12⟩ → m = ⟨some .closing, ⟨7, 12⟩⟩ := by decide +kernel
    exact hall mark (by rw [hat.cut]; simp) hposition.symm
  subst hmark
  exact ⟨hread, ⟨before, after, hat⟩, hbytes .closing rfl empty "C" trivial⟩

end Store

end PresenceTable
