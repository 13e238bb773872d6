/-
  PresenceTable.Proofs.Decoding
  ─────────────────────────────
  **THE WRITTEN TABLE CAN BE TAKEN APART.**

  A path may have any bytes but ':' and newline, so it may have a ';' as
  well.  A written condition has neither a ';' nor a newline: its names are
  words, and its signs are others.  So the newlines of a table end its
  lines, and the last ';' of a line stands between path and condition.

  The conditions in a table come from the lines of a listing.  That their
  names are words does not depend on what else the store holds.

  Main results:
    * `Bytes.cutAtLast_append` — cutting at the last separator;
    * `Formula.all_print` — the bytes of a written condition;
    * `Conversion.decode_write` — the entries of a table, from its text.
-/
import PresenceTable.Proofs.Cutting
import PresenceTable.Proofs.Formula.NormalForm
import PresenceTable.Proofs.Independence
import PresenceTable.Proofs.Store.Printing

namespace PresenceTable

/-! ## §1. Cutting at separators. -/

namespace Bytes

variable {separates : UInt8 → Bool}

/-- What stands in front of the last separator of a text and what stands
behind it, if there is one. -/
def cutAtLast (separates : UInt8 → Bool) : Bytes → Option (Bytes × Bytes)
  | [] => none
  | b :: s =>
    match cutAtLast separates s with
    | some (front, back) => some (b :: front, back)
    | none => if separates b then some ([], s) else none

theorem cutAtLast_of_none {s : Bytes} (h : ∀ b ∈ s, separates b = false) :
    cutAtLast separates s = none := by
  induction s with
  | nil => rfl
  | cons b s ih =>
      have hs := ih fun x hx => h x (List.mem_cons_of_mem _ hx)
      rw [cutAtLast, hs]
      simp [h b List.mem_cons_self]

/-- **The last separator** is the one behind which there are no others,
whatever stands in front of it. -/
theorem cutAtLast_append {b : UInt8} (hb : separates b = true) {back : Bytes}
    (hback : ∀ x ∈ back, separates x = false) (front : Bytes) :
    cutAtLast separates (front ++ b :: back) = some (front, back) := by
  induction front with
  | nil =>
      show cutAtLast separates (b :: back) = _
      rw [cutAtLast, cutAtLast_of_none hback]
      simp [hb]
  | cons x front ih =>
      show cutAtLast separates (x :: (front ++ b :: back)) = _
      rw [cutAtLast, ih]

end Bytes

/-! ## §2. The bytes of a written condition. -/

namespace Formula

/-- The bytes with which conditions are written: those of words, signs and
parentheses, and the space. -/
def isPrinted (b : UInt8) : Bool :=
  Bytes.isWord b || (Bytes.ofString "!&|() ").contains b

theorem all_print {f : Formula} (hnames : ∀ n ∈ f.names, n.IsWord) :
    f.print.all isPrinted = true := by
  induction f with
  | bot => rw [print_bot]; decide
  | var n =>
      rw [print_var, List.all_eq_true]
      intro b hb
      unfold isPrinted
      rw [hnames n List.mem_cons_self b hb, Bool.true_or]
  | neg f ih =>
      have hsign : List.all ("!" : Bytes) isPrinted = true := by decide
      rw [print_neg, List.all_append, hsign, ih hnames, Bool.and_self]
  | conj f g ihf ihg =>
      have hf := ihf fun n hn => hnames n (List.mem_append_left _ hn)
      have hg := ihg fun n hn => hnames n (List.mem_append_right _ hn)
      simp only [print_conj, List.all_append, hf, hg]
      decide
  | disj f g ihf ihg =>
      have hf := ihf fun n hn => hnames n (List.mem_append_left _ hn)
      have hg := ihg fun n hn => hnames n (List.mem_append_right _ hn)
      simp only [print_disj, List.all_append, hf, hg]
      decide

/-- A byte with which no condition is written. -/
theorem ne_of_mem_print {f : Formula} (hnames : ∀ n ∈ f.names, n.IsWord) {other : UInt8}
    (hother : isPrinted other = false) : ∀ b ∈ f.print, b ≠ other := by
  rintro b hb rfl
  rw [List.all_eq_true.1 (all_print hnames) b hb] at hother
  cases hother

end Formula

/-- The names in the tree of a file are words. -/
theorem isWord_finalTree (erased : Name → Bool) (condition : Bytes) :
    ∀ n ∈ (finalTree erased condition).names, n.IsWord := by
  unfold finalTree
  cases husable : usable? erased condition with
  | none => intro n hn; cases hn
  | some f =>
      -- the tree is what elimination leaves of a condition that was read
      unfold usable? at husable
      split at husable
      · cases husable
      · split at husable
        · next g hread =>
          cases husable
          intro n hn
          exact (Formula.ofText_eq_ok_iff.1 hread).isWord n (Formula.names_eliminate n hn)
        · cases husable

/-! ## §3. The bytes of a path. -/

theorem Input.isNewline_of_mem_lines {input : Input} {line : Bytes} (h : line ∈ input.lines) :
    ∀ b ∈ line, isNewline b = false := by
  apply Bytes.separates_of_mem_split (s := input.text)
  unfold lines at h
  dsimp only at h
  split at h
  · exact List.dropLast_subset _ h
  · exact h

theorem ListingLine.Gives.mem_line {line path condition : Bytes} (h : Gives line path condition) :
    ∀ b ∈ path, b ∈ line := by
  obtain ⟨-, -, rest, rfl, -⟩ := h
  intro b hb
  exact List.mem_append_left _ hb

/-! ## §4. The entries of a table, from its text. -/

/-- The byte between a path and its condition in a table. -/
def Model.isSemicolon (b : UInt8) : Bool := b == ';'.toUInt8

/-- The text is read as the condition with this id, in this store and in
any that comes from it.  The constant `bot` is read as the variable that is
written like it; where it does not occur, the id itself is answered and
nothing is stored. -/
def Store.ReadsBack (s : Store) (written : Bytes) (id : NodeId) : Prop :=
  ∃ f : Formula, s.formula id = .ok f ∧
    ∀ (t : Store) (line : UInt32), Grows s t → t.WellFormed →
      ((t.read written line).2.size < UInt32.size - 1 →
          ∃ id', (t.read written line).1 = .ok id'
            ∧ (t.read written line).2.formula id' = .ok f.nameBot)
        ∧ (f.BotFree → t.read written line = (.ok id, t))

theorem Store.WellFormed.readsBack {s : Store} (hs : s.WellFormed) {id : NodeId} {f : Formula}
    (hf : s.Denotes id f) (hnames : ∀ n ∈ f.names, n.IsWord) : s.ReadsBack f.print id := by
  refine ⟨f, hs.formula_eq hf, ?_⟩
  intro t line hgrows ht
  -- the id has its tree in the later store as well
  have hden := hf.of_grows hgrows
  have hspelled := Formula.spelledBy_print hnames
  constructor
  · intro hsize
    rw [read_of_spelledBy hspelled] at hsize ⊢
    dsimp only at hsize
    obtain ⟨hwf, hadd⟩ := ht.add (f := f.nameBot) (by omega)
    exact ⟨_, rfl, hwf.formula_eq hadd⟩
  · intro hfree
    rw [Formula.nameBot_of_botFree hfree] at hspelled
    exact ht.read_of_denotes hden hspelled line

namespace Conversion

/-- What an entry of the table comes from. -/
theorem Holds.denotes_of_mem_entries {erased : Name → Bool} {c : Conversion}
    {lines : List Bytes} (hc : c.Holds (lines.flatMap (lineTrees erased))) {r : Record}
    (hr : r ∈ c.model.entries) :
    ∃ line ∈ lines, ∃ condition, ListingLine.Gives line r.1 condition
      ∧ c.store.Denotes r.2 (finalTree erased condition) := by
  have hrel := hc.get?_model r.1
  rw [Model.mem_entries_iff.1 hr] at hrel
  cases hlast : ListingLine.lastCondition? lines r.1 with
  | none => rw [hlast] at hrel; cases hrel
  | some condition =>
      rw [hlast] at hrel
      obtain ⟨before, line, after, rfl, hgives, -⟩ := ListingLine.lastCondition?_eq_some hlast
      cases hrel with
      | some hden =>
          exact ⟨line, List.mem_append_right _ List.mem_cons_self, condition, hgives, hden⟩

/-- The entry is written, what is written for its condition is read as that
condition, and the bytes that end a line or a path are in no part where they
would be taken for the end. -/
structure Legible (c : Conversion) (r : Record) : Prop where
  print : c.store.print r.2 = .ok (c.store.printed r.2)
  readsBack : c.store.ReadsBack (c.store.printed r.2) r.2
  newline_path : ∀ b ∈ r.1, Input.isNewline b = false
  newline_printed : ∀ b ∈ c.store.printed r.2, Input.isNewline b = false
  semicolon_printed : ∀ b ∈ c.store.printed r.2, Model.isSemicolon b = false

/-- **The entries of a converted listing are legible**: a path is part of a
line, and the names in a condition are words. -/
theorem Holds.legible {erased : Name → Bool} {c : Conversion} {input : Input}
    (hc : c.Holds (input.lines.flatMap (lineTrees erased))) {r : Record}
    (hr : r ∈ c.model.entries) : c.Legible r := by
  obtain ⟨line, hline, condition, hgives, hden⟩ := hc.denotes_of_mem_entries hr
  have hnames := isWord_finalTree erased condition
  have hprint := hc.wellFormed.print_eq hden
  have hprinted := Store.printed_eq hprint
  constructor
  · rw [hprinted]
    exact hprint
  · rw [hprinted]
    exact hc.wellFormed.readsBack hden hnames
  · intro b hb
    exact Input.isNewline_of_mem_lines hline b (hgives.mem_line b hb)
  · rw [hprinted]
    intro b hb
    exact beq_eq_false_iff_ne.2 (Formula.ne_of_mem_print hnames (by decide) b hb)
  · rw [hprinted]
    intro b hb
    exact beq_eq_false_iff_ne.2 (Formula.ne_of_mem_print hnames (by decide) b hb)

/-- The line of an entry, without its newline. -/
def entryLine (c : Conversion) (r : Record) : Bytes := r.1 ++ ";" ++ c.store.printed r.2

theorem Legible.isNewline_of_mem_entryLine {c : Conversion} {r : Record} (h : c.Legible r) :
    ∀ b ∈ c.entryLine r, Input.isNewline b = false := by
  intro b hb
  rcases List.mem_append.1 hb with hfront | hback
  · rcases List.mem_append.1 hfront with hmem | hmem
    · exact h.newline_path b hmem
    · rw [List.mem_singleton.1 hmem]
      decide
  · exact h.newline_printed b hback

theorem Legible.cutAtLast_entryLine {c : Conversion} {r : Record} (h : c.Legible r) :
    Bytes.cutAtLast Model.isSemicolon (c.entryLine r) = some (r.1, c.store.printed r.2) := by
  unfold entryLine
  rw [List.append_assoc]
  exact Bytes.cutAtLast_append (by decide) h.semicolon_printed r.1

/-- **The entries of a table can be got back from its text.**  Cut at every
newline, the text falls into the lines of the table, and nothing is left
behind the last of them.  Cut at its last ';', each line falls into the path
and the written condition of an entry, in the order of the entries.  And
what is written for a condition is read as that condition. -/
theorem decode_write {s : Store} (hs : s.WellFormed) (types : TypeTable) (input : Input)
    {c : Conversion} (hc : c = (({ store := s } : Conversion).listing types.erases input).2)
    (hsize : c.store.size < UInt32.size - 1) :
    ∃ (text : Bytes) (lines : List Bytes) (rows : List (Bytes × Bytes)),
      c.model.write c.store = .ok text
        ∧ Bytes.split Input.isNewline text = lines ++ [[]]
        ∧ lines.map (Bytes.cutAtLast Model.isSemicolon) = rows.map some
        ∧ List.Forall₂ (fun row r => row.1 = r.1 ∧ c.store.print r.2 = .ok row.2
            ∧ c.store.ReadsBack row.2 r.2) rows c.model.entries := by
  have hstart : ({ store := s } : Conversion).Holds [] := ⟨hs, .nil⟩
  have hlisting := hstart.listing types.erases input
  rw [← hc] at hlisting
  obtain ⟨-, hholds⟩ := hlisting (by omega)
  rw [List.nil_append] at hholds
  have hlegible : ∀ r ∈ c.model.entries, c.Legible r := fun r hr => hholds.legible hr
  have hlines : ∀ line ∈ c.model.entries.map c.entryLine,
      ∀ b ∈ line, Input.isNewline b = false := by
    intro line hline
    obtain ⟨r, hr, rfl⟩ := List.mem_map.1 hline
    exact (hlegible r hr).isNewline_of_mem_entryLine
  refine ⟨_, c.model.entries.map c.entryLine,
    c.model.entries.map fun r => (r.1, c.store.printed r.2),
    Model.write_ok fun r hr => (hlegible r hr).print, ?_, ?_, ?_⟩
  · rw [← Bytes.split_flatMap (b := '\n'.toUInt8) (by decide) hlines, List.flatMap_map]
    rfl
  · rw [List.map_map, List.map_map]
    apply List.map_congr_left
    intro r hr
    exact (hlegible r hr).cutAtLast_entryLine
  · rw [List.forall₂_map_left_iff, List.forall₂_same]
    intro r hr
    exact ⟨rfl, (hlegible r hr).print, (hlegible r hr).readsBack⟩

/-- Paths with a ';' in them, and a condition with the constant `bot`, in a
store that holds another condition already. -/
theorem decode_write_semicolons :
    ∃ (c : Conversion) (lines : List Bytes) (rows : List (Bytes × Bytes)),
      c.model.write c.store = .ok "a;b.c;(A && false)\nd;;(B || !C);B\n"
        ∧ Bytes.split Input.isNewline "a;b.c;(A && false)\nd;;(B || !C);B\n" = lines ++ [[]]
        ∧ lines.map (Bytes.cutAtLast Model.isSemicolon) = rows.map some
        ∧ List.Forall₂ (fun row r => row.1 = r.1 ∧ c.store.print r.2 = .ok row.2
            ∧ c.store.ReadsBack row.2 r.2) rows c.model.entries := by
  have hs : (Store.empty.read "A || !B" 1).2.WellFormed :=
    Store.wellFormed_empty.read "A || !B" 1 (by decide +kernel)
  obtain ⟨text, lines, rows, hwrite, hsplit, hcut, hrows⟩ :=
    decode_write hs (TypeTable.empty.declare "X" "bool")
      ⟨"a;b.c: A && X_MODULE\nd;;(B || !C): !B\n", false⟩ rfl (by decide +kernel)
  have htext : text = "a;b.c;(A && false)\nd;;(B || !C);B\n" :=
    Except.ok.inj (hwrite.symm.trans (by decide +kernel))
  subst htext
  exact ⟨_, lines, rows, hwrite, hsplit, hcut, hrows⟩

end Conversion

end PresenceTable
