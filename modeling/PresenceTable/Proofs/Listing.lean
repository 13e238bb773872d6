/-
  PresenceTable.Proofs.Listing
  ────────────────────────────
  **THE LAST LINE OF A FILE.**

  `Gives line path condition` says in terms of the bytes of a line what it
  gives to which file.  A listing may have many lines for one file; the
  last of them is the one that counts.

  Main results:
    * `ofText_eq_entry_iff_gives` — the lines that give a file, by bytes;
    * `lastCondition?_eq_some` — where in a listing the last condition of
      a file stands.
-/
import Mathlib.Data.List.Induction
import Mathlib.Data.List.TakeWhile
import Mathlib.Tactic.ByContra
import PresenceTable.Listing

namespace PresenceTable

/-! ## §1. Lines that give a file. -/

theorem Bytes.trim_eq_nil_iff (s : Bytes) : Bytes.trim s = [] ↔ ∀ b ∈ s, isBlank b = true := by
  unfold trim
  rw [List.reverse_eq_nil_iff, List.dropWhile_eq_nil_iff]
  constructor
  · intro h
    rw [← List.dropWhile_eq_nil_iff]
    -- the first byte that is left would not be blank
    by_contra hne
    have hhead := List.head_dropWhile_not isBlank hne
    have hmem : (s.dropWhile isBlank).head hne ∈ (s.dropWhile isBlank).reverse :=
      List.mem_reverse.2 (List.head_mem hne)
    rw [h _ hmem] at hhead
    cases hhead
  · intro h b hb
    exact h b ((List.dropWhile_sublist _).subset (List.mem_reverse.1 hb))

namespace ListingLine

/-- The line is not blank, the path is what stands before its first ':',
and the condition begins two bytes after that. -/
def Gives (line path condition : Bytes) : Prop :=
  (∃ b ∈ line, Bytes.isBlank b = false)
    ∧ ':'.toUInt8 ∉ path
    ∧ ∃ rest, line = path ++ ':'.toUInt8 :: rest ∧ condition = rest.drop 1

theorem isColon_iff {b : UInt8} : isColon b = true ↔ b = ':'.toUInt8 := by
  simp [isColon]

/-- Cutting a line at its first ':'. -/
theorem cut_iff (line path rest : Bytes) :
    (∃ colon, line.dropWhile (! isColon ·) = colon :: rest
        ∧ line.takeWhile (! isColon ·) = path)
      ↔ ':'.toUInt8 ∉ path ∧ line = path ++ ':'.toUInt8 :: rest := by
  constructor
  · intro h
    obtain ⟨colon, hdrop, hpath⟩ := h
    have hcolon : colon = ':'.toUInt8 := by
      have hhead := List.head_dropWhile_not (! isColon ·) (l := line) (by rw [hdrop]; simp)
      simp only [hdrop, List.head_cons, Bool.not_eq_false'] at hhead
      exact isColon_iff.1 hhead
    refine ⟨?_, ?_⟩
    · intro hmem
      rw [← hpath] at hmem
      have hnot := List.all_takeWhile (p := (! isColon ·)) (l := line)
      have := List.all_eq_true.1 hnot _ hmem
      simp [isColon] at this
    · rw [← hcolon, ← hdrop, ← hpath, List.takeWhile_append_dropWhile]
  · intro h
    obtain ⟨hpath, rfl⟩ := h
    have hnot : ∀ b ∈ path, (! isColon b) = true := by
      intro b hb
      rw [Bool.not_eq_true', ← Bool.not_eq_true, isColon_iff]
      exact fun hcolon => hpath (hcolon ▸ hb)
    refine ⟨':'.toUInt8, ?_, ?_⟩
    · rw [List.dropWhile_append_of_pos hnot]
      rfl
    · rw [List.takeWhile_append_of_pos hnot]
      simp [isColon]

/-- **The lines that give a file**, and what they give to it. -/
theorem ofText_eq_entry_iff_gives {line path condition : Bytes} :
    ofText line = .entry path condition ↔ Gives line path condition := by
  have hblank : Bytes.trim line ≠ [] ↔ ∃ b ∈ line, Bytes.isBlank b = false := by
    rw [ne_eq, Bytes.trim_eq_nil_iff]
    simp
  rw [ofText_eq_entry_iff, hblank]
  refine and_congr_right fun _ => ⟨fun h => ?_, fun h => ?_⟩
  · obtain ⟨colon, rest, hdrop, hpath, hcondition⟩ := h
    obtain ⟨hnot, hline⟩ := (cut_iff line path rest).1 ⟨colon, hdrop, hpath⟩
    exact ⟨hnot, rest, hline, hcondition.symm⟩
  · obtain ⟨hnot, rest, hline, hcondition⟩ := h
    obtain ⟨colon, hdrop, hpath⟩ := (cut_iff line path rest).2 ⟨hnot, hline⟩
    exact ⟨colon, rest, hdrop, hpath, hcondition.symm⟩

end ListingLine

/-! ## §2. What a list gives last. -/

section

variable {α κ ν : Type} {f : α → Option (κ × ν)} {l : List α} {k : κ} {v : ν}

/-- If anything is given to a key, something is given to it last. -/
theorem exists_last (h : ∃ a ∈ l, ∃ w, f a = some (k, w)) :
    ∃ before a after w, l = before ++ a :: after ∧ f a = some (k, w)
      ∧ ∀ later ∈ after, ∀ w, f later ≠ some (k, w) := by
  induction l with
  | nil =>
      obtain ⟨_, hmem, -⟩ := h
      cases hmem
  | cons b l ih =>
      by_cases hlater : ∃ a ∈ l, ∃ w, f a = some (k, w)
      · obtain ⟨before, a, after, w, rfl, ha, hafter⟩ := ih hlater
        exact ⟨b :: before, a, after, w, rfl, ha, hafter⟩
      · obtain ⟨a, hmem, w, ha⟩ := h
        rcases List.mem_cons.1 hmem with rfl | hmem
        · exact ⟨[], a, l, w, rfl, ha, fun later hl w hw => hlater ⟨later, hl, w, hw⟩⟩
        · exact absurd ⟨a, hmem, w, ha⟩ hlater

variable [BEq κ] [LawfulBEq κ]

/-- What is given to a key last is found first from the end. -/
theorem lookup_of_last {before after : List α} {a : α} (ha : f a = some (k, v))
    (hafter : ∀ later ∈ after, ∀ w, f later ≠ some (k, w)) :
    ((before ++ a :: after).filterMap f).reverse.lookup k = some v := by
  have hnone : (after.filterMap f).reverse.lookup k = none := by
    rw [List.lookup_eq_none_iff]
    rintro ⟨other, w⟩ hmem
    obtain ⟨later, hlater, hgives⟩ := List.mem_filterMap.1 (List.mem_reverse.1 hmem)
    rw [bne_iff_ne]
    rintro rfl
    exact hafter later hlater w hgives
  rw [List.filterMap_append, List.filterMap_cons_some ha, List.reverse_append, List.reverse_cons,
    List.lookup_append, List.lookup_append, hnone]
  simp

/-- **What a list gives to a key** is what it gives to it last. -/
theorem lookup_reverse_filterMap_eq_some_iff :
    (l.filterMap f).reverse.lookup k = some v
      ↔ ∃ before a after, l = before ++ a :: after ∧ f a = some (k, v)
        ∧ ∀ later ∈ after, ∀ w, f later ≠ some (k, w) := by
  constructor
  · intro h
    have hmem : (k, v) ∈ l.filterMap f := by
      obtain ⟨before, after, hsplit, -⟩ := List.lookup_eq_some_iff.1 h
      rw [← List.mem_reverse, hsplit]
      simp
    obtain ⟨a, ha, hgives⟩ := List.mem_filterMap.1 hmem
    obtain ⟨before, last, after, w, rfl, hlast, hafter⟩ := exists_last ⟨a, ha, v, hgives⟩
    rw [lookup_of_last hlast hafter] at h
    cases h
    exact ⟨before, last, after, rfl, hlast, hafter⟩
  · rintro ⟨before, a, after, rfl, ha, hafter⟩
    exact lookup_of_last ha hafter

theorem lookup_reverse_filterMap_eq_none_iff :
    (l.filterMap f).reverse.lookup k = none ↔ ∀ a ∈ l, ∀ w, f a ≠ some (k, w) := by
  constructor
  · intro h a ha w hgives
    obtain ⟨before, last, after, v, rfl, hlast, hafter⟩ := exists_last ⟨a, ha, w, hgives⟩
    rw [lookup_of_last hlast hafter] at h
    cases h
  · intro h
    rw [Option.eq_none_iff_forall_ne_some]
    intro v hv
    obtain ⟨before, a, after, rfl, ha, -⟩ := lookup_reverse_filterMap_eq_some_iff.1 hv
    exact h a (by simp) v ha

end

/-! ## §3. The last line of a file. -/

namespace ListingLine

/-- The file and the condition that a line gives. -/
def fileOf? : ListingLine → Option (Bytes × Bytes)
  | .entry path condition => some (path, condition)
  | .blank | .malformed => none

theorem fileOf?_eq_some_iff_gives {line path condition : Bytes} :
    (ofText line).fileOf? = some (path, condition) ↔ Gives line path condition := by
  rw [← ofText_eq_entry_iff_gives]
  cases ofText line <;> simp [fileOf?]

/-- The condition on the last line that gives the file. -/
def lastCondition? (lines : List Bytes) (path : Bytes) : Option Bytes :=
  (lines.filterMap fun line => (ofText line).fileOf?).reverse.lookup path

theorem lastCondition?_append_of_gives (lines : List Bytes) {line path condition : Bytes}
    (h : Gives line path condition) : lastCondition? (lines ++ [line]) path = some condition := by
  unfold lastCondition?
  rw [List.filterMap_append]
  simp [fileOf?_eq_some_iff_gives.2 h]

theorem lastCondition?_append_of_not_gives (lines : List Bytes) {line path : Bytes}
    (h : ∀ condition, ¬ Gives line path condition) :
    lastCondition? (lines ++ [line]) path = lastCondition? lines path := by
  unfold lastCondition?
  rw [List.filterMap_append, List.reverse_append, List.lookup_append]
  cases hentry : (ofText line).fileOf? with
  | none => simp [hentry]
  | some entry =>
      obtain ⟨p, condition⟩ := entry
      have hne : path ≠ p := by
        intro heq
        exact h condition (fileOf?_eq_some_iff_gives.1 (heq ▸ hentry))
      simp [hentry, List.lookup_cons, beq_eq_false_iff_ne.2 hne]

/-- **Where the last condition of a file stands.** -/
theorem lastCondition?_eq_some {lines : List Bytes} {path condition : Bytes}
    (h : lastCondition? lines path = some condition) :
    ∃ before line after, lines = before ++ line :: after ∧ Gives line path condition
      ∧ ∀ later ∈ after, ∀ c, ¬ Gives later path c := by
  obtain ⟨before, line, after, hlines, hline, hafter⟩ :=
    lookup_reverse_filterMap_eq_some_iff.1 h
  refine ⟨before, line, after, hlines, fileOf?_eq_some_iff_gives.1 hline, ?_⟩
  intro later hlater c hc
  exact hafter later hlater c (fileOf?_eq_some_iff_gives.2 hc)

/-- A file that some line gives has a last condition. -/
theorem exists_lastCondition? {lines : List Bytes} {line path condition : Bytes}
    (hline : line ∈ lines) (h : Gives line path condition) :
    ∃ c, lastCondition? lines path = some c := by
  rw [← Option.ne_none_iff_exists']
  intro hnone
  exact lookup_reverse_filterMap_eq_none_iff.1 hnone line hline condition
    (fileOf?_eq_some_iff_gives.2 h)

end ListingLine

end PresenceTable
