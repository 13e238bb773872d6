/-
  PresenceTable.Proofs.Token.Tiling
  ─────────────────────────────────
  **TOKENS TILE THEIR TEXT.**

      Cut offset text symbols final reason

  says how a text that stands at an offset is cut: which symbols stand at
  which offsets, where the last one of them and the white space behind it
  end, and what is wrong there, if anything.  It does not mention cursors,
  and its offsets are numbers of bytes, without a bound.  Columns are kept
  in 32 bits and tell the offsets apart when the text is short enough.

  Main results:
    * `exists_cut` — every text can be cut;
    * `Cut.tokens_eq` — a cursor finds the symbols of a cut;
    * `Cut.pairwise`, `Cut.isSpace_of_uncovered`, `Cut.standsIn` — how the
      symbols of a cut stand in the text;
    * `Cut.exists_front` — the text ends, or is refused, where no piece begins;
    * `tokens_tile` — the tokens of a text, and where it is refused.
-/
import PresenceTable.Proofs.Token.Pieces

namespace PresenceTable

/-! ## §1. Cutting a text. -/

/-- A symbol, and how many bytes stand in front of it. -/
structure PlacedSymbol where
  offset : Nat
  symbol : Symbol
  deriving DecidableEq, Repr

namespace PlacedSymbol

/-- How many bytes stand in front of what follows the symbol. -/
def finish (p : PlacedSymbol) : Nat := p.offset + p.symbol.text.length

/-- The symbol as a token of a text on the given line. -/
def token (line : UInt32) (p : PlacedSymbol) : Token :=
  ⟨p.symbol, ⟨line, UInt32.ofNat (p.offset + 1)⟩⟩

end PlacedSymbol

/-- A stop behind so many bytes, at the end of the text or for a reason. -/
def Stop.behind (line : UInt32) (offset : Nat) : Option SyntaxError.Reason → Stop
  | none => .endOfText ⟨line, UInt32.ofNat (offset + 1)⟩
  | some reason => .failure ⟨⟨line, UInt32.ofNat (offset + 1)⟩, reason⟩

/-- How a text is cut when so many bytes stand in front of it: the symbols
in it, where the last of them and the white space behind it end, and why no
further symbol follows, unless the text ends there. -/
inductive Cut : Nat → Bytes → List PlacedSymbol → Nat → Option SyntaxError.Reason → Prop where
  | endOfText {offset : Nat} {space : Bytes} (hspace : ∀ b ∈ space, Bytes.isSpace b = true) :
      Cut offset space [] (offset + space.length) none
  | failure {offset : Nat} {space : Bytes} {b : UInt8} {rest : Bytes}
      {reason : SyntaxError.Reason} (hspace : ∀ c ∈ space, Bytes.isSpace c = true)
      (hb : Bytes.isSpace b = false) (hscan : Symbol.scan b rest = .error reason) :
      Cut offset (space ++ b :: rest) [] (offset + space.length) (some reason)
  | symbol {offset : Nat} {space : Bytes} {symbol : Symbol} {after : Bytes}
      {later : List PlacedSymbol} {final : Nat} {reason : Option SyntaxError.Reason}
      (hspace : ∀ b ∈ space, Bytes.isSpace b = true) (hends : symbol.EndsBefore after)
      (hlater : Cut (offset + space.length + symbol.text.length) after later final reason) :
      Cut offset (space ++ (symbol.text ++ after)) (⟨offset + space.length, symbol⟩ :: later)
        final reason

/-- **Every text can be cut.** -/
theorem exists_cut (text : Bytes) (offset : Nat) :
    ∃ symbols final reason, Cut offset text symbols final reason := by
  -- a symbol is never empty, so the induction is on how many bytes are left
  induction hk : text.length using Nat.strongRecOn generalizing text offset with
  | ind k ih =>
      subst hk
      have hspace : ∀ b ∈ text.takeWhile Bytes.isSpace, Bytes.isSpace b = true :=
        fun _ hb => List.mem_takeWhile_imp hb
      have hcut := List.takeWhile_append_dropWhile (p := Bytes.isSpace) (l := text)
      have hstop := List.head?_dropWhile_not Bytes.isSpace text
      generalize text.takeWhile Bytes.isSpace = space at hspace hcut
      cases hrest : text.dropWhile Bytes.isSpace with
      | nil =>
          rw [hrest, List.append_nil] at hcut
          subst hcut
          exact ⟨[], _, none, .endOfText hspace⟩
      | cons b rest =>
          rw [hrest] at hcut hstop
          subst hcut
          cases hscan : Symbol.scan b rest with
          | error reason => exact ⟨[], _, some reason, .failure hspace hstop hscan⟩
          | ok symbol =>
              obtain ⟨after, hafter, hends⟩ := Symbol.exists_after_of_scan hscan
              have hpos := List.length_pos_iff.2 symbol.text_ne_nil
              obtain ⟨later, final, reason, hlater⟩ :=
                ih after.length (by rw [hafter]; simp; omega) after
                  (offset + space.length + symbol.text.length) rfl
              rw [hafter]
              exact ⟨_, final, reason, .symbol hspace hends hlater⟩

/-- A cursor in front of white space answers like one behind it. -/
theorem Cursor.next_of_space (line : UInt32) (offset : Nat) {space : Bytes} (rest : Bytes)
    (hspace : ∀ b ∈ space, Bytes.isSpace b = true)
    (hrest : ∀ b ∈ rest.head?, Bytes.isSpace b = false) :
    (Cursor.mk line offset (space ++ rest)).next
      = (Cursor.mk line (offset + space.length) rest).take := by
  have hstop : rest.takeWhile Bytes.isSpace = [] := by
    cases rest with
    | nil => rfl
    | cons b rest => simp [hrest b rfl]
  have htake : (space ++ rest).takeWhile Bytes.isSpace = space := by
    rw [List.takeWhile_append_of_pos hspace, hstop, List.append_nil]
  unfold next skipSpace advance
  dsimp only
  rw [htake, List.drop_left]

/-- **A cursor finds the symbols of a cut**, and stops where the cut ends. -/
theorem Cut.tokens_eq {offset final : Nat} {text : Bytes} {symbols : List PlacedSymbol}
    {reason : Option SyntaxError.Reason} (h : Cut offset text symbols final reason)
    (line : UInt32) :
    (Cursor.mk line offset text).tokens
      = ⟨symbols.map (·.token line), Stop.behind line final reason⟩ := by
  induction h with
  | @endOfText offset space hspace =>
      have hnext := Cursor.next_of_space line offset [] hspace fun _ h => by cases h
      rw [List.append_nil] at hnext
      exact Cursor.tokens_of_next_error hnext
  | @failure offset space b rest reason hspace hb hscan =>
      have hhead : ∀ c ∈ (b :: rest).head?, Bytes.isSpace c = false := by
        intro c hc
        cases hc
        exact hb
      have hnext := Cursor.next_of_space line offset (b :: rest) hspace hhead
      simp only [Cursor.take, hscan] at hnext
      exact Cursor.tokens_of_next_error hnext
  | @symbol offset space symbol after later final reason hspace hends _ ih =>
      obtain ⟨b, rest, hcut, hb, hscan⟩ := Symbol.scan_text hends
      have hhead : ∀ c ∈ (b :: rest).head?, Bytes.isSpace c = false := by
        intro c hc
        cases hc
        exact hb
      have hnext := Cursor.next_of_space line offset (b :: rest) hspace hhead
      simp only [Cursor.take, hscan, Cursor.advance] at hnext
      rw [← hcut, List.drop_left] at hnext
      rw [Cursor.tokens_of_next_ok hnext, ih]
      rfl

theorem Cut.ofText_eq {text : Bytes} {symbols : List PlacedSymbol} {final : Nat}
    {reason : Option SyntaxError.Reason} (h : Cut 0 text symbols final reason) (line : UInt32) :
    TokenStream.ofText text line = ⟨symbols.map (·.token line), Stop.behind line final reason⟩ :=
  h.tokens_eq line

/-! ## §2. What a cut says about its text. -/

/-- No name goes on from the first text into the second. -/
def Bytes.Separated (before after : Bytes) : Prop :=
  after.EndsName ∨ ∀ b ∈ before.getLast?, Bytes.isWord b = false

theorem Bytes.separated_nil (after : Bytes) : Bytes.Separated [] after :=
  .inr fun _ hb => by cases hb

theorem Bytes.Separated.append_space {before space after : Bytes}
    (hspace : ∀ b ∈ space, Bytes.isSpace b = true)
    (h : Bytes.Separated before (space ++ after)) : Bytes.Separated (before ++ space) after := by
  by_cases hempty : space = []
  · rw [hempty, List.append_nil]
    rw [hempty] at h
    exact h
  · refine .inr fun b hb => ?_
    rw [List.getLast?_append_of_ne_nil before hempty] at hb
    exact Bytes.isWord_eq_false_of_isSpace (hspace b (List.mem_of_mem_getLast? hb))

theorem Symbol.EndsBefore.separated {symbol : Symbol} {after : Bytes}
    (h : symbol.EndsBefore after) (before : Bytes) :
    Bytes.Separated (before ++ symbol.text) after := by
  unfold Bytes.Separated
  rw [List.getLast?_append_of_ne_nil before symbol.text_ne_nil]
  cases symbol with
  | name n => exact .inl h.2
  | bang | and | or | opening | closing =>
      refine .inr fun b hb => ?_
      cases hb
      decide

theorem Bytes.Separated.of_name {before after : Bytes} {n : Name} (hn : n.IsWord)
    (h : Bytes.Separated before (n.val ++ after)) :
    ∀ b ∈ before.getLast?, Bytes.isWord b = false := by
  refine h.resolve_left fun hends => ?_
  obtain ⟨c, cs, hcs⟩ := List.exists_cons_of_ne_nil n.property
  have hc := hends c (by rw [hcs]; rfl)
  rw [hn c (hcs ▸ List.mem_cons_self)] at hc
  cases hc

/-- The symbol stands at its offset in the text and ends there as it would
end by itself; if it is a name, then no byte of a name stands in front. -/
def PlacedSymbol.StandsIn (p : PlacedSymbol) (text : Bytes) : Prop :=
  ∃ before after, text = before ++ (p.symbol.text ++ after) ∧ before.length = p.offset
    ∧ p.symbol.EndsBefore after
    ∧ ∀ n, p.symbol = .name n → ∀ b ∈ before.getLast?, Bytes.isWord b = false

namespace Cut

variable {offset final : Nat} {text : Bytes} {symbols : List PlacedSymbol}
  {reason : Option SyntaxError.Reason}

theorem offset_le (h : Cut offset text symbols final reason) :
    ∀ p ∈ symbols, offset ≤ p.offset := by
  induction h with
  | endOfText | failure => intro p hp; cases hp
  | symbol _ _ _ ih =>
      intro p hp
      rcases List.mem_cons.1 hp with rfl | hlater
      · exact Nat.le_add_right _ _
      · have hle := ih p hlater
        omega

/-- **The symbols follow one another** and do not overlap. -/
theorem pairwise (h : Cut offset text symbols final reason) :
    symbols.Pairwise fun p q => p.finish ≤ q.offset := by
  induction h with
  | endOfText | failure => exact .nil
  | symbol _ _ hlater ih => exact .cons hlater.offset_le ih

/-- **What no symbol covers is white space.** -/
theorem isSpace_of_uncovered (h : Cut offset text symbols final reason) :
    ∀ {i : Nat} {b : UInt8}, text[i]? = some b → offset + i < final →
      (∀ p ∈ symbols, ¬ (p.offset ≤ offset + i ∧ offset + i < p.finish)) →
      Bytes.isSpace b = true := by
  induction h with
  | endOfText hspace =>
      intro i b hb _ _
      exact hspace b (List.mem_of_getElem? hb)
  | failure hspace _ _ =>
      intro i b hb hfinal _
      rw [List.getElem?_append_left (by omega)] at hb
      exact hspace b (List.mem_of_getElem? hb)
  | @symbol offset space symbol after later final reason hspace _ hlater ih =>
      intro i b hb hfinal huncovered
      by_cases hfront : i < space.length
      · rw [List.getElem?_append_left hfront] at hb
        exact hspace b (List.mem_of_getElem? hb)
      · -- the byte stands behind the first symbol, which does not cover it
        have hfirst := huncovered _ List.mem_cons_self
        simp only [PlacedSymbol.finish] at hfirst
        rw [List.getElem?_append_right (by omega), List.getElem?_append_right (by omega)] at hb
        refine ih hb (by omega) fun p hp hcovers => ?_
        exact huncovered p (List.mem_cons_of_mem _ hp) (by omega)

/-- **Every symbol of a cut stands in the text**, also when other bytes stand
in front of the text, as long as they do not lengthen a name. -/
theorem standsIn (h : Cut offset text symbols final reason) :
    ∀ done : Bytes, done.length = offset → Bytes.Separated done text →
      ∀ p ∈ symbols, p.StandsIn (done ++ text) := by
  induction h with
  | endOfText | failure => intro done _ _ p hp; cases hp
  | @symbol offset space symbol after later final reason hspace hends _ ih =>
      intro done hdone hseparated p hp
      have hfront := hseparated.append_space hspace
      rcases List.mem_cons.1 hp with rfl | hlater
      · refine ⟨done ++ space, after, (List.append_assoc _ _ _).symm, ?_, hends, ?_⟩
        · rw [List.length_append, hdone]
        · rintro n rfl
          exact hfront.of_name hends.1
      · have hlength : (done ++ space ++ symbol.text).length
            = offset + space.length + symbol.text.length := by
          rw [List.length_append, List.length_append, hdone]
        have hstands := ih _ hlength (hends.separated (done ++ space)) p hlater
        simpa only [List.append_assoc] using hstands

theorem standsIn_text (h : Cut 0 text symbols final reason) : ∀ p ∈ symbols, p.StandsIn text :=
  h.standsIn [] rfl (Bytes.separated_nil text)

/-- **A cut ends where no piece begins**, and in front of that place the text
can be scanned. -/
theorem exists_front (h : Cut offset text symbols final reason) :
    ∃ front rest, text = front ++ rest ∧ front.Scannable ∧ offset + front.length = final
      ∧ (∀ piece, Bytes.IsPiece piece → ¬ piece <+: rest) ∧ (reason = none ↔ rest = []) := by
  induction h with
  | @endOfText offset space hspace =>
      refine ⟨space, [], (List.append_nil _).symm, ?_, rfl, ?_, by simp⟩
      · exact Bytes.scannable_of_all fun b hb => Bytes.standsAlone_of_isSpace (hspace b hb)
      · intro piece hpiece hprefix
        rw [List.prefix_nil.1 hprefix] at hpiece
        cases hpiece
  | @failure offset space b rest reason hspace hb hscan =>
      refine ⟨space, b :: rest, rfl, ?_, rfl, Symbol.not_prefix_of_scan_error hb hscan, by simp⟩
      exact Bytes.scannable_of_all fun b hb => Bytes.standsAlone_of_isSpace (hspace b hb)
  | @symbol offset space symbol after later final reason hspace hends _ ih =>
      obtain ⟨front, rest, rfl, hfront, hfinal, hrest, hreason⟩ := ih
      refine ⟨space ++ (symbol.text ++ front), rest, ?_, ?_, ?_, hrest, hreason⟩
      · simp only [List.append_assoc]
      · have hspace' := Bytes.scannable_of_all fun b hb => Bytes.standsAlone_of_isSpace (hspace b hb)
        exact hspace'.append (hends.scannable.append hfront)
      · rw [List.length_append, List.length_append]
        omega

end Cut

/-! ## §3. The tokens of a text. -/

/-- How many bytes stand in front of a token, by its column. -/
def Token.offset (t : Token) : Nat := t.position.column.toNat - 1

/-- How many bytes stand in front of what follows a token. -/
def Token.finish (t : Token) : Nat := t.offset + t.symbol.text.length

/-- The tokens are the text, but for white space between them. -/
structure TokenStream.Tiles (stream : TokenStream) (text : Bytes) : Prop where
  /-- What stands at the column of a token is what the token spells. -/
  spelled : ∀ t ∈ stream.tokens, 1 ≤ t.position.column.toNat
    ∧ (text.drop t.offset).take t.symbol.text.length = t.symbol.text
    ∧ Symbol.ofText? t.symbol.text = some t.symbol
  /-- The columns increase, and no token begins within another one. -/
  ordered : stream.tokens.Pairwise fun t u =>
    t.position.column < u.position.column ∧ t.finish ≤ u.offset
  /-- A byte that belongs to no token is white space. -/
  covered : ∀ (i : Nat) (b : UInt8), text[i]? = some b →
    (∀ t ∈ stream.tokens, ¬ (t.offset ≤ i ∧ i < t.finish)) → Bytes.isSpace b = true
  /-- A name is not empty, and no byte next to it could belong to it. -/
  maximal : ∀ t ∈ stream.tokens, ∀ n : Name, t.symbol = .name n → n.val ≠ []
    ∧ (∀ b, text[t.finish]? = some b → Bytes.isWord b = false)
    ∧ ∀ (i : Nat) (b : UInt8), i + 1 = t.offset → text[i]? = some b → Bytes.isWord b = false

theorem PlacedSymbol.toNat_column_token {p : PlacedSymbol} (line : UInt32)
    (h : p.offset < UInt32.size - 1) : (p.token line).position.column.toNat = p.offset + 1 :=
  UInt32.toNat_ofNat_of_lt' (by omega)

theorem PlacedSymbol.StandsIn.finish_le {p : PlacedSymbol} {text : Bytes} (h : p.StandsIn text) :
    p.offset < p.finish ∧ p.finish ≤ text.length := by
  obtain ⟨before, after, rfl, hbefore, -⟩ := h
  have hpos := List.length_pos_iff.2 p.symbol.text_ne_nil
  simp only [PlacedSymbol.finish, List.length_append]
  omega

/-- **The symbols of a cut tile the text**, when the cut comes to its end. -/
theorem Cut.tiles {text : Bytes} {symbols : List PlacedSymbol}
    (h : Cut 0 text symbols text.length none) (hlen : text.length < UInt32.size - 1)
    (line : UInt32) (stop : Stop) :
    TokenStream.Tiles ⟨symbols.map (·.token line), stop⟩ text := by
  have hstands := h.standsIn_text
  have hcolumn : ∀ p ∈ symbols, (p.token line).position.column.toNat = p.offset + 1 := by
    intro p hp
    have hle := (hstands p hp).finish_le
    exact p.toNat_column_token line (by omega)
  have hoffset : ∀ p ∈ symbols, (p.token line).offset = p.offset := by
    intro p hp
    rw [Token.offset, hcolumn p hp]
    rfl
  have hfinish : ∀ p ∈ symbols, (p.token line).finish = p.finish := by
    intro p hp
    rw [Token.finish, hoffset p hp]
    rfl
  constructor
  · intro t ht
    obtain ⟨p, hp, rfl⟩ := List.mem_map.1 ht
    obtain ⟨before, after, htext, hbefore, hends, -⟩ := hstands p hp
    refine ⟨by rw [hcolumn p hp]; omega, ?_, hends.ofText?_text⟩
    rw [hoffset p hp, ← hbefore, htext, List.drop_left]
    exact List.take_left
  · refine List.pairwise_map.2 (h.pairwise.imp_of_mem fun {p q} hp hq hle => ?_)
    have hlt := (hstands p hp).finish_le
    rw [hfinish p hp, hoffset q hq, UInt32.lt_iff_toNat_lt, hcolumn p hp, hcolumn q hq]
    omega
  · intro i b hb huncovered
    have hi : i < text.length := (List.getElem?_eq_some_iff.1 hb).1
    refine h.isSpace_of_uncovered hb (by omega) fun p hp hcovers => ?_
    refine huncovered _ (List.mem_map_of_mem hp) ?_
    rw [hoffset p hp, hfinish p hp]
    omega
  · intro t ht n hn
    obtain ⟨p, hp, rfl⟩ := List.mem_map.1 ht
    obtain ⟨before, after, htext, hbefore, hends, hborder⟩ := hstands p hp
    have hname : p.symbol = .name n := hn
    rw [hoffset p hp, hfinish p hp, PlacedSymbol.finish, ← hbefore, htext]
    refine ⟨n.property, fun b hb => ?_, fun i b hi hb => ?_⟩
    · rw [hname] at hends hb
      rw [List.getElem?_append_right (Nat.le_add_right _ _), Nat.add_sub_cancel_left,
        List.getElem?_append_right (Nat.le_refl _), Nat.sub_self] at hb
      exact hends.2 b (List.head?_eq_getElem?.trans hb)
    · rw [List.getElem?_append_left (by omega)] at hb
      refine hborder n hname b (List.getLast?_eq_getElem?.trans ?_)
      rw [← hi, Nat.add_sub_cancel, hb]

/-- **The tokens of a text**, and where it is refused.  Let the part be the
longest front of the text that can be scanned.  The tokens reach the end of
the text exactly when the part is the whole text; otherwise the text is
refused behind the part.  Tokens that reach the end tile the text. -/
theorem tokens_tile (text : Bytes) (line : UInt32) (hlen : text.length < UInt32.size - 1) :
    ∃ part, Bytes.LongestScannable part text
      ∧ (∀ other, Bytes.LongestScannable other text → other = part)
      ∧ ((∃ position, (TokenStream.ofText text line).stop = .endOfText position) ↔ part = text)
      ∧ (part ≠ text → ∃ error, (TokenStream.ofText text line).stop = .failure error
          ∧ error.position.column.toNat = part.length + 1)
      ∧ (part = text → (∃ position, (TokenStream.ofText text line).stop = .endOfText position
            ∧ position.column.toNat = text.length + 1)
          ∧ (TokenStream.ofText text line).Tiles text) := by
  obtain ⟨symbols, final, reason, hcut⟩ := exists_cut text 0
  obtain ⟨front, rest, rfl, hfront, rfl, hrest, hreason⟩ := hcut.exists_front
  have hlongest := Bytes.LongestScannable.of_append hfront hrest
  have hcolumn : (UInt32.ofNat (0 + front.length + 1)).toNat = front.length + 1 := by
    rw [List.length_append] at hlen
    rw [UInt32.toNat_ofNat_of_lt' (by omega)]
    omega
  have hwhole : front = front ++ rest ↔ reason = none := by
    rw [hreason, List.self_eq_append_right]
  rw [hcut.ofText_eq]
  refine ⟨front, hlongest, fun other h => hlongest.unique h, ?_, ?_, ?_⟩
  · rw [hwhole]
    cases reason with
    | none => exact iff_of_true ⟨_, rfl⟩ rfl
    | some reason => exact iff_of_false (by rintro ⟨_, h⟩; cases h) (by simp)
  · intro hpart
    cases reason with
    | none => exact absurd (hwhole.2 rfl) hpart
    | some reason => exact ⟨_, rfl, hcolumn⟩
  · intro hpart
    obtain rfl : reason = none := hwhole.1 hpart
    rw [← hpart] at hcut hlen ⊢
    rw [Nat.zero_add] at hcut
    exact ⟨⟨_, rfl, hcolumn⟩, hcut.tiles hlen line _⟩

/-- A third `&` is refused behind the pair that the first two make; and a text
in which names, signs and white space of several kinds touch one another. -/
theorem tokens_tile_of_signs :
    Bytes.LongestScannable "A &&" "A &&&b"
      ∧ (TokenStream.ofText " !A_1||\t(b) " 3).Tiles " !A_1||\t(b) " := by
  constructor
  · obtain ⟨part, hpart, -, hreached, hrefused, -⟩ := tokens_tile "A &&&b" 7 (by decide)
    have hstop : (TokenStream.ofText "A &&&b" 7).stop
        = .failure ⟨⟨7, 5⟩, .loneOperator '&'.toUInt8⟩ := by decide +kernel
    have hne : part ≠ "A &&&b" := by
      intro h
      obtain ⟨_, hend⟩ := hreached.2 h
      rw [hstop] at hend
      cases hend
    obtain ⟨error, herror, hcolumn⟩ := hrefused hne
    rw [hstop] at herror
    cases herror
    have hlength : part.length = 4 := (Nat.succ.inj hcolumn).symm
    have heq : part = "A &&" := by
      rw [List.prefix_iff_eq_take.1 hpart.front, hlength]
      rfl
    exact heq ▸ hpart
  · obtain ⟨part, -, -, hreached, -, htiles⟩ := tokens_tile " !A_1||\t(b) " 3 (by decide)
    exact (htiles (hreached.1 ⟨⟨3, 13⟩, by decide +kernel⟩)).2

end PresenceTable
