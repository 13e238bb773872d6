/-
  PresenceTable.Proofs.Resumption
  ───────────────────────────────
  **AN INTERRUPTED CONVERSION CAN BE RESUMED.**

  When the reading of a listing breaks off, the line in which it did is lost
  and nothing of it was converted.  So what is left is what a conversion of
  the ended lines leaves, and the rest of the listing, with that line in
  front, can be converted from there:

      listing: |---- ended lines ----|---- the rest ----|
      read:    |---- ended lines ----| part of a line

  The lines of the rest have other numbers in the second call than they have
  in the listing.  Their numbers stand in reports, and make no other
  difference.

  Main results:
    * `Input.exists_lines_append` — lines behind ended lines;
    * `judgedAlike_onLine` — a line under a later number;
    * `Conversion.listing_resumed` — a conversion that was interrupted.
-/
import PresenceTable.Proofs.Cutting
import PresenceTable.Proofs.Likeness
import PresenceTable.Proofs.Repetition

namespace PresenceTable

/-! ## §1. Lines behind ended lines. -/

/-- The last line of the text, if it has one, is ended. -/
def Bytes.Ended (text : Bytes) : Prop := ∀ b ∈ text.getLast?, Input.isNewline b = true

instance (text : Bytes) : Decidable text.Ended :=
  inferInstanceAs (Decidable (∀ b ∈ text.getLast?, Input.isNewline b = true))

namespace Input

/-- What stands in front of a newline is cut into lines by itself. -/
theorem lines_append_newline {b : UInt8} (hb : isNewline b = true) (front rest : Bytes)
    (interrupted : Bool) :
    lines ⟨front ++ b :: rest, interrupted⟩
      = Bytes.split isNewline front ++ lines ⟨rest, interrupted⟩ := by
  have hne := Bytes.split_ne_nil isNewline rest
  unfold lines
  dsimp only
  rw [Bytes.split_append_of_separates hb, List.getLast?_append_of_ne_nil _ hne,
    List.dropLast_append_of_ne_nil hne]
  split <;> rfl

/-- **The lines behind ended lines** are those of the rest of the text. -/
theorem exists_lines_append {ended : Bytes} (h : ended.Ended) :
    ∃ ls : List Bytes, ls.length = ended.countP isNewline
      ∧ ∀ (rest : Bytes) (interrupted : Bool),
          lines ⟨ended ++ rest, interrupted⟩ = ls ++ lines ⟨rest, interrupted⟩ := by
  rcases List.eq_nil_or_concat' ended with rfl | ⟨front, b, rfl⟩
  · exact ⟨[], rfl, fun _ _ => rfl⟩
  · have hb : isNewline b = true := h b (by simp)
    refine ⟨Bytes.split isNewline front, ?_, fun rest interrupted => ?_⟩
    · rw [Bytes.length_split, List.countP_append, List.countP_singleton, if_pos hb]
    · rw [List.append_assoc]
      exact lines_append_newline hb front rest interrupted

theorem lines_empty (interrupted : Bool) : lines ⟨[], interrupted⟩ = [] := by
  cases interrupted <;> rfl

/-- A line that was not read to its end is lost. -/
theorem lines_of_broken {text : Bytes} (h : ∀ b ∈ text, isNewline b = false) :
    lines ⟨text, true⟩ = [] := by
  rw [lines_of_interrupted, Bytes.split_of_forall h]
  rfl

end Input

/-! ## §2. Lines under later numbers. -/

/-- Both report the same verdict, the second one on a line that has so many
more in front of it. -/
def Diagnostic.Later (count : UInt32) (d d' : Diagnostic) : Prop :=
  ∃ (v : Verdict) (number : UInt32), v.diagnostic? number = some d
    ∧ (v.onLine (number + count)).diagnostic? (number + count) = some d'

theorem Diagnostic.Later.eq {count : UInt32} {d d' : Diagnostic} (h : Later count d d') :
    d.severity = d'.severity ∧ d.path = d'.path ∧ d'.line = d.line + count := by
  obtain ⟨v, number, hd, hd'⟩ := h
  cases v with
  | blank | failed | converted => cases hd
  | malformed | invalid | unreadable =>
      cases hd
      cases hd'
      exact ⟨rfl, rfl, rfl⟩

theorem Verdict.alike_onLine (v : Verdict) (number count : UInt32) :
    Verdict.Alike (Diagnostic.Later count) number (number + count) v
      (v.onLine (number + count)) where
  records := (v.records_onLine _).symm
  count := fun _ => by cases v <;> rfl
  fault := by cases v <;> rfl
  reports := by
    cases v with
    | blank | failed | converted => exact .nil
    | malformed text => exact .cons ⟨.malformed text, number, rfl, rfl⟩ .nil
    | invalid path => exact .cons ⟨.invalid path, number, rfl, rfl⟩ .nil
    | unreadable path condition error =>
        exact .cons ⟨.unreadable path condition error, number, rfl, rfl⟩ .nil

/-- **A line under a later number** is judged alike. -/
theorem judgedAlike_onLine (erased : Name → Bool) (text : Bytes) (number count : UInt32) :
    JudgedAlike (Diagnostic.Later count) erased (text, number) (text, number + count) := by
  intro s
  dsimp only
  rw [judge_onLine erased s text number (number + count)]
  exact ⟨Verdict.alike_onLine _ number count, rfl⟩

theorem forall₂_judgedAlike_numbered (erased : Name → Bool) (ls : List Bytes)
    (first count : Nat) :
    List.Forall₂ (JudgedAlike (Diagnostic.Later (UInt32.ofNat count)) erased) (numbered first ls)
      (numbered (first + count) ls) := by
  have hsame : List.Forall₂ Eq ls ls := List.forall₂_same.2 fun _ _ => rfl
  refine (forall₂_numbered hsame first (first + count)).imp fun l l' h => ?_
  obtain ⟨text, number⟩ := l
  obtain ⟨text', number'⟩ := l'
  obtain ⟨rfl, k, rfl, rfl⟩ := h
  rw [Nat.add_right_comm, UInt32.ofNat_add (first + k)]
  exact judgedAlike_onLine erased text _ _

/-! ## §3. Interrupted conversions. -/

namespace Conversion

variable {c : Conversion}

theorem listing_eq (hc : c.store.Navigable) (erased : Name → Bool) (input : Input) :
    c.listing erased input
      = (if input.interrupted then .error (.interrupted input.lineCount) else .ok (),
        (c.lines erased (numbered 1 input.lines)).2) := by
  have hok := (lines_ok erased input.numberedLines hc).1
  unfold listing
  rw [numberedLines_eq] at hok ⊢
  rcases hlines : c.lines erased (numbered 1 input.lines) with ⟨answer, after⟩
  rw [hlines] at hok
  cases hok
  rfl

/-- **An interrupted conversion can be resumed.**  When the reading of a
listing breaks off within a line, the error names the number of the lines in
front of it, and everything is left as a conversion of these lines leaves it.
When the rest of the listing is converted from there, then the records, the
counts, the store and the table are those of a conversion of the whole listing
without interruption, and there are as many warnings and errors.  What is
reported about the lines in front is the same, and what is reported about the
others differs in the numbers of their lines only. -/
theorem listing_resumed (hc : c.store.WellFormed) (types : TypeTable)
    (ended broken rest : Bytes) (hended : ended.Ended)
    (hbroken : ∀ b ∈ broken, Input.isNewline b = false)
    (hcount : ended.countP Input.isNewline < UInt32.size) :
    ∃ (error : ConversionError) (after resumed whole : Conversion),
      c.listing types.erases ⟨ended ++ broken, true⟩ = (.error error, after)
        ∧ error.message
            = "read error after line " ++ Bytes.decimal (ended.countP Input.isNewline)
        ∧ c.listing types.erases ⟨ended, false⟩ = (.ok (), after)
        ∧ after.listing types.erases ⟨rest, false⟩ = (.ok (), resumed)
        ∧ c.listing types.erases ⟨ended ++ rest, false⟩ = (.ok (), whole)
        ∧ resumed.records = whole.records
        ∧ resumed.stats = whole.stats
        ∧ resumed.store = whole.store
        ∧ resumed.model = whole.model
        ∧ resumed.warnings = whole.warnings
        ∧ resumed.errors = whole.errors
        ∧ ∃ ds ds', resumed.diagnostics.toList = after.diagnostics.toList ++ ds
            ∧ whole.diagnostics.toList = after.diagnostics.toList ++ ds'
            ∧ List.Forall₂
                (Diagnostic.Later (UInt32.ofNat (ended.countP Input.isNewline))) ds ds' := by
  obtain ⟨ls, hlength, happend⟩ := Input.exists_lines_append hended
  have hlines : Input.lines ⟨ended, false⟩ = ls := by
    have hnone := happend [] false
    rwa [List.append_nil, Input.lines_empty, List.append_nil] at hnone
  have hlost : Input.lines ⟨ended ++ broken, true⟩ = ls := by
    rw [happend, Input.lines_of_broken hbroken, List.append_nil]
  -- the conversion of the ended lines, from which both others go on
  have hnav := (lines_ok types.erases (numbered 1 ls) hc.navigable).2
  generalize hafter : (c.lines types.erases (numbered 1 ls)).2 = after at hnav
  have halike := (Alike.lines (forall₂_judgedAlike_numbered types.erases
    (Input.lines ⟨rest, false⟩) 1 ls.length) (Alike.refl _ after)).2
  rw [hlength] at halike
  refine ⟨.interrupted (UInt32.ofNat ls.length), after, _, _, ?_, ?_, ?_, listing_eq hnav _ _, ?_,
    halike.records, halike.stats, halike.store, halike.model_eq,
    halike.count_eq (fun _ _ h => h.eq.1) _, halike.count_eq (fun _ _ h => h.eq.1) _,
    halike.reports⟩
  · rw [listing_eq hc.navigable, ← hafter]
    unfold Input.lineCount
    rw [hlost]
    rfl
  · show _ ++ Bytes.decimal (UInt32.ofNat ls.length).toNat = _
    rw [hlength, UInt32.toNat_ofNat_of_lt' hcount]
  · rw [listing_eq hc.navigable, hlines, hafter]
    rfl
  · rw [listing_eq hc.navigable, happend, numbered_append, lines_append_eq hc.navigable, hafter,
      hlength]
    rfl

/-- The reading breaks off in the third line, within a condition that is
different when it is read as a whole; a line in front of it and one behind it
can not be read. -/
theorem listing_resumed_twice_refused :
    ∃ (error : ConversionError) (after resumed whole : Conversion),
      start.listing TypeTable.empty.erases ⟨"a.c: (\nb.c: A\n" ++ "c.c: B", true⟩
          = (.error error, after)
        ∧ error.message = "read error after line 2"
        ∧ after.listing TypeTable.empty.erases ⟨"c.c: B || A\nd.c: (", false⟩ = (.ok (), resumed)
        ∧ start.listing TypeTable.empty.erases
            ⟨"a.c: (\nb.c: A\n" ++ "c.c: B || A\nd.c: (", false⟩ = (.ok (), whole)
        ∧ resumed.stats = ⟨4, 2, 0, 2, 0⟩ ∧ whole.stats = ⟨4, 2, 0, 2, 0⟩
        ∧ resumed.records = whole.records
        ∧ resumed.diagnostics.toList.map Diagnostic.line = [1, 2]
        ∧ whole.diagnostics.toList.map Diagnostic.line = [1, 4] := by
  obtain ⟨error, after, resumed, whole, hbroken, hmessage, -, hresumed, hwhole, hrecords, -⟩ :=
    listing_resumed (c := start) Store.wellFormed_empty TypeTable.empty "a.c: (\nb.c: A\n" "c.c: B"
      "c.c: B || A\nd.c: (" (by decide +kernel) (by decide +kernel) (by decide +kernel)
  have hafter := congrArg Prod.snd hbroken
  have hresumed' := congrArg Prod.snd hresumed
  have hwhole' := congrArg Prod.snd hwhole
  dsimp only at hafter hresumed' hwhole'
  subst hafter hresumed' hwhole'
  exact ⟨error, _, _, _, hbroken, hmessage, hresumed, hwhole, by decide +kernel,
    by decide +kernel, hrecords, by decide +kernel, by decide +kernel⟩

end Conversion

end PresenceTable
