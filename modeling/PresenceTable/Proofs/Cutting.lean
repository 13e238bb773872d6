/-
  PresenceTable.Proofs.Cutting
  ────────────────────────────
  **CUTTING TEXTS INTO PARTS.**

  A text is cut at separators, a line is cut down to its content, and a
  content into runs.  Each of these is a function, and here it is said what
  its result is without it: by writing the text down as the parts that it
  consists of,

      line:     blanks  content  blanks  comment
      content:  gap  run  gap  run  ...  gap

  Blanks and gaps are not of the same bytes.  A form feed or a vertical tab
  lies between runs, but at the end of a line it belongs to the content.

  Main results:
    * `split_append_of_separates` — cutting on both sides of a separator;
    * `split_flatMap` — pieces that each end with a separator;
    * `isContent_iff` — the content of a line;
    * `runs_iff` — the runs of a text.
-/
import Mathlib.Data.List.TakeWhile
import PresenceTable.Bytes

namespace PresenceTable

namespace Bytes

/-! ## §1. Pieces between separators. -/

variable {separates : UInt8 → Bool}

theorem split_of_forall {s : Bytes} (h : ∀ b ∈ s, separates b = false) :
    split separates s = [s] := by
  induction s with
  | nil => rfl
  | cons b s ih =>
      have hlater := ih fun c hc => h c (List.mem_cons_of_mem _ hc)
      exact split_cons_of_eq (h b List.mem_cons_self) hlater

/-- **What stands in front of a separator** and what stands behind it are cut
apart from each other. -/
theorem split_append_of_separates {b : UInt8} (hb : separates b = true) (front rest : Bytes) :
    split separates (front ++ b :: rest) = split separates front ++ split separates rest := by
  induction front with
  | nil => exact split_cons_of_separates hb rest
  | cons c front ih =>
      rw [List.cons_append]
      cases hc : separates c with
      | true => rw [split_cons_of_separates hc, split_cons_of_separates hc, ih, List.cons_append]
      | false =>
          cases hfront : split separates front with
          | nil => exact absurd hfront (split_ne_nil separates front)
          | cons piece later =>
              rw [hfront, List.cons_append] at ih
              rw [split_cons_of_eq hc hfront, split_cons_of_eq hc ih, List.cons_append]

/-- There is one piece more than there are separators. -/
theorem length_split (s : Bytes) : (split separates s).length = s.countP separates + 1 := by
  induction s with
  | nil => rfl
  | cons b s ih =>
      cases hb : separates b with
      | true =>
          rw [split_cons_of_separates hb, List.length_cons, ih, List.countP_cons_of_pos hb]
      | false =>
          rw [split_cons_of_not_separates hb, List.length_cons, List.length_tail, ih,
            List.countP_cons_of_neg (by rw [hb]; decide)]
          rfl

/-- What has no separator in it belongs to the last piece of what stands in
front of it. -/
theorem exists_split_append_of_forall (s : Bytes) : ∃ pieces last,
    split separates s = pieces ++ [last]
      ∧ ∀ back : Bytes, (∀ b ∈ back, separates b = false) →
          split separates (s ++ back) = pieces ++ [last ++ back] := by
  induction s with
  | nil => exact ⟨[], [], rfl, fun back hback => split_of_forall hback⟩
  | cons b s ih =>
      obtain ⟨pieces, last, hs, hback⟩ := ih
      cases hb : separates b with
      | true =>
          refine ⟨[] :: pieces, last, ?_, fun back h => ?_⟩
          · rw [split_cons_of_separates hb, hs, List.cons_append]
          · rw [List.cons_append, split_cons_of_separates hb, hback back h, List.cons_append]
      | false =>
          cases pieces with
          | nil =>
              exact ⟨[], b :: last, split_cons_of_eq hb hs,
                fun back h => split_cons_of_eq hb (hback back h)⟩
          | cons piece pieces =>
              exact ⟨(b :: piece) :: pieces, last, split_cons_of_eq hb hs,
                fun back h => split_cons_of_eq hb (hback back h)⟩

/-- What has no separator in it, and none but separators beside it, is a piece. -/
theorem mem_split_of_bounded {before piece after : Bytes}
    (hpiece : ∀ b ∈ piece, separates b = false)
    (hbefore : ∀ b ∈ before.getLast?, separates b = true)
    (hafter : ∀ b ∈ after.head?, separates b = true) :
    piece ∈ split separates (before ++ (piece ++ after)) := by
  -- what stands behind the piece is cut off from it, and what stands in front of it
  have hback : piece ∈ split separates (piece ++ after) := by
    cases after with
    | nil => rw [List.append_nil, split_of_forall hpiece]; exact List.mem_singleton_self _
    | cons b after =>
        rw [split_append_of_separates (hafter b rfl), split_of_forall hpiece]
        exact List.mem_append_left _ (List.mem_singleton_self _)
  rcases List.eq_nil_or_concat before with rfl | ⟨front, b, rfl⟩
  · exact hback
  · rw [List.concat_eq_append] at hbefore ⊢
    have hb := hbefore b List.getLast?_concat
    rw [List.append_assoc, List.singleton_append, split_append_of_separates hb]
    exact List.mem_append_right _ hback

/-- The pieces between separators have none in them. -/
theorem separates_of_mem_split {s piece : Bytes} (h : piece ∈ split separates s) :
    ∀ b ∈ piece, separates b = false := by
  induction s generalizing piece with
  | nil =>
      rw [split_nil, List.mem_singleton] at h
      rw [h]
      intro b hb
      cases hb
  | cons c s ih =>
      cases hc : separates c with
      | true =>
          rw [split_cons_of_separates hc] at h
          rcases List.mem_cons.1 h with rfl | hlater
          · intro b hb
            cases hb
          · exact ih hlater
      | false =>
          rw [split_cons_of_not_separates hc] at h
          rcases List.mem_cons.1 h with rfl | hlater
          · -- the first piece of the rest, with one more byte
            have hhead := ih (List.head_mem (split_ne_nil separates s))
            intro b hb
            rcases List.mem_cons.1 hb with rfl | hmem
            · exact hc
            · exact hhead b hmem
          · exact ih (List.mem_of_mem_tail hlater)

/-- **Pieces that each end with a separator** are found again; nothing
follows the last of them. -/
theorem split_flatMap {b : UInt8} (hb : separates b = true) {pieces : List Bytes}
    (h : ∀ piece ∈ pieces, ∀ x ∈ piece, separates x = false) :
    split separates (pieces.flatMap (· ++ [b])) = pieces ++ [[]] := by
  induction pieces with
  | nil => rfl
  | cons piece pieces ih =>
      have hlater := ih fun p hp => h p (List.mem_cons_of_mem _ hp)
      rw [List.flatMap_cons, List.append_assoc, List.singleton_append,
        split_append_of_separates hb, split_of_forall (h piece List.mem_cons_self), hlater,
        List.singleton_append, List.cons_append]

/-! ## §2. The content of a line. -/

section

variable {p : UInt8 → Bool} {front back : Bytes}

theorem takeWhile_append_eq (hfront : ∀ b ∈ front, p b = true)
    (hback : ∀ b ∈ back.head?, p b = false) : (front ++ back).takeWhile p = front := by
  rw [List.takeWhile_append_of_pos hfront]
  cases back with
  | nil => simp
  | cons b back => simp [hback b rfl]

theorem dropWhile_append_eq (hfront : ∀ b ∈ front, p b = true)
    (hback : ∀ b ∈ back.head?, p b = false) : (front ++ back).dropWhile p = back := by
  rw [List.dropWhile_append_of_pos hfront]
  cases back with
  | nil => rfl
  | cons b back => simp [hback b rfl]

theorem eq_false_of_mem_head?_dropWhile (p : UInt8 → Bool) (s : Bytes) :
    ∀ b ∈ (s.dropWhile p).head?, p b = false := by
  intro b hb
  have hhead := List.head?_dropWhile_not p s
  rwa [Option.mem_def.1 hb] at hhead

end

/-- Blanks in front of a text and behind it are trimmed, if it has none at its
own ends. -/
theorem trim_append {before content after : Bytes} (hbefore : ∀ b ∈ before, isBlank b = true)
    (hafter : ∀ b ∈ after, isBlank b = true) (hhead : ∀ b ∈ content.head?, isBlank b = false)
    (hlast : ∀ b ∈ content.getLast?, isBlank b = false) :
    trim (before ++ content ++ after) = content := by
  unfold trim
  cases content with
  | nil =>
      have hblank : ∀ b ∈ before ++ [] ++ after, isBlank b = true := by
        intro b hb
        rw [List.append_nil, List.mem_append] at hb
        exact hb.elim (hbefore b) (hafter b)
      rw [List.dropWhile_eq_nil_iff.2 hblank]
      rfl
  | cons c content =>
      have hfront : (before ++ (c :: content ++ after)).dropWhile isBlank = c :: content ++ after :=
        dropWhile_append_eq hbefore hhead
      have hback : (after.reverse ++ (c :: content).reverse).dropWhile isBlank
          = (c :: content).reverse := by
        apply dropWhile_append_eq fun b hb => hafter b (List.mem_reverse.1 hb)
        rwa [List.head?_reverse]
      rw [List.append_assoc, hfront, List.reverse_append, hback, List.reverse_reverse]

/-- A text is what trimming leaves of it, between blanks. -/
theorem exists_trim (s : Bytes) : ∃ before after : Bytes,
    s = before ++ trim s ++ after
      ∧ (∀ b ∈ before ++ after, isBlank b = true)
      ∧ (∀ b ∈ (trim s).head?, isBlank b = false)
      ∧ ∀ b ∈ (trim s).getLast?, isBlank b = false := by
  obtain ⟨later, hlater⟩ : ∃ later, later = s.dropWhile isBlank := ⟨_, rfl⟩
  have hsplit : later = trim s ++ (later.reverse.takeWhile isBlank).reverse := by
    unfold trim
    rw [← hlater, ← List.reverse_append, List.takeWhile_append_dropWhile, List.reverse_reverse]
  refine ⟨s.takeWhile isBlank, (later.reverse.takeWhile isBlank).reverse, ?_, ?_, ?_, ?_⟩
  · rw [List.append_assoc, ← hsplit, hlater, List.takeWhile_append_dropWhile]
  · intro b hb
    rcases List.mem_append.1 hb with hmem | hmem
    · exact List.mem_takeWhile_imp hmem
    · exact List.mem_takeWhile_imp (List.mem_reverse.1 hmem)
  · intro b hb
    apply eq_false_of_mem_head?_dropWhile isBlank s b
    rw [← hlater, hsplit, List.head?_append, Option.mem_def.1 hb]
    rfl
  · intro b hb
    apply eq_false_of_mem_head?_dropWhile isBlank later.reverse b
    unfold trim at hb
    rwa [List.getLast?_reverse, ← hlater] at hb

theorem ne_of_isBlank {b other : UInt8} (hother : isBlank other = false) (hb : isBlank b = true) :
    b ≠ other := by
  rintro rfl
  rw [hb] at hother
  cases hother

/-- More blanks behind a text make no difference. -/
theorem trim_append_of_isBlank {gap : Bytes} (hgap : ∀ b ∈ gap, isBlank b = true) (s : Bytes) :
    trim (s ++ gap) = trim s := by
  obtain ⟨before, after, hs, hblank, hhead, hlast⟩ := exists_trim s
  have hafter : ∀ b ∈ after ++ gap, isBlank b = true := by
    intro b hb
    rcases List.mem_append.1 hb with hmem | hmem
    · exact hblank b (List.mem_append_right _ hmem)
    · exact hgap b hmem
  have hmore := trim_append (fun b hb => hblank b (List.mem_append_left _ hb)) hafter hhead hlast
  rwa [← List.append_assoc, ← hs] at hmore

theorem stripComment_append_of_isBlank {gap : Bytes} (hgap : ∀ b ∈ gap, isBlank b = true)
    (s : Bytes) : stripComment (s ++ gap) = stripComment s := by
  unfold stripComment
  rw [List.takeWhile_append]
  split
  · next h =>
    -- without a comment the blanks are at the end of what is trimmed
    have hkept : gap.takeWhile (· != '#'.toUInt8) = gap := by
      rw [List.takeWhile_eq_self_iff]
      exact fun b hb => bne_iff_ne.2 (ne_of_isBlank (by decide) (hgap b hb))
    rw [hkept, trim_append_of_isBlank hgap, (List.takeWhile_prefix _).eq_of_length h]
  · rfl

/-- A comment is no part of the content, also if there is one in front of it. -/
theorem stripComment_append_comment (s comment : Bytes) :
    stripComment (s ++ '#'.toUInt8 :: comment) = stripComment s := by
  have hcut : ('#'.toUInt8 :: comment).takeWhile (· != '#'.toUInt8) = [] :=
    List.takeWhile_cons_of_neg (by decide)
  unfold stripComment
  rw [List.takeWhile_append]
  split
  · next h => rw [hcut, List.append_nil, (List.takeWhile_prefix _).eq_of_length h]
  · rfl

/-- What is left of a line without its comment, which begins at the first '#',
and without the blanks at the ends. -/
def IsContent (line content : Bytes) : Prop :=
  ∃ before after comment : Bytes,
    line = before ++ content ++ after ++ comment
      ∧ '#'.toUInt8 ∉ before ++ content ++ after
      ∧ (∀ b ∈ comment.head?, b = '#'.toUInt8)
      ∧ (∀ b ∈ before ++ after, isBlank b = true)
      ∧ (∀ b ∈ content.head?, isBlank b = false)
      ∧ ∀ b ∈ content.getLast?, isBlank b = false

/-- **The content of a line** is what it is stripped to. -/
theorem isContent_iff {line content : Bytes} :
    IsContent line content ↔ stripComment line = content := by
  constructor
  · rintro ⟨before, after, comment, rfl, hhash, hcomment, hblank, hhead, hlast⟩
    have hkept : ∀ b ∈ before ++ content ++ after, (b != '#'.toUInt8) = true := by
      intro b hb
      rw [bne_iff_ne]
      rintro rfl
      exact hhash hb
    unfold stripComment
    rw [takeWhile_append_eq hkept fun b hb => by rw [hcomment b hb]; decide]
    exact trim_append (fun b hb => hblank b (List.mem_append_left _ hb))
      (fun b hb => hblank b (List.mem_append_right _ hb)) hhead hlast
  · rintro rfl
    obtain ⟨before, after, hkept, hblank, hhead, hlast⟩ :=
      exists_trim (line.takeWhile (· != '#'.toUInt8))
    refine ⟨before, after, line.dropWhile (· != '#'.toUInt8), ?_, ?_, ?_, hblank, hhead, hlast⟩
    · unfold stripComment
      rw [← hkept, List.takeWhile_append_dropWhile]
    · unfold stripComment
      rw [← hkept]
      intro hmem
      exact absurd (List.mem_takeWhile_imp hmem) (by decide)
    · intro b hb
      simpa using eq_false_of_mem_head?_dropWhile _ line b hb

/-! ## §3. Runs. -/

/-- The runs of a text are these, each of them as long as can be: it is
followed by white space or by nothing. -/
inductive Runs : Bytes → List Bytes → Prop
  | nil {gap : Bytes} (hgap : ∀ b ∈ gap, isSpace b = true) : Runs gap []
  | cons {gap run rest : Bytes} {runs : List Bytes} (hgap : ∀ b ∈ gap, isSpace b = true)
      (hne : run ≠ []) (hrun : ∀ b ∈ run, isSpace b = false)
      (hend : ∀ b ∈ rest.head?, isSpace b = true) (hrest : Runs rest runs) :
      Runs (gap ++ run ++ rest) (run :: runs)

/-- White space in front of a text makes no difference. -/
theorem fields_append_of_isSpace {gap : Bytes} (hgap : ∀ b ∈ gap, isSpace b = true) (s : Bytes) :
    fields (gap ++ s) = fields s := by
  induction gap with
  | nil => rfl
  | cons b gap ih =>
      rw [List.cons_append]
      unfold fields
      rw [split_cons_of_separates (hgap b List.mem_cons_self)]
      exact ih fun c hc => hgap c (List.mem_cons_of_mem _ hc)

/-- A run in front of white space, or of nothing, is the first field. -/
theorem fields_run_append {run rest : Bytes} (hne : run ≠ []) (hrun : ∀ b ∈ run, isSpace b = false)
    (hend : ∀ b ∈ rest.head?, isSpace b = true) : fields (run ++ rest) = run :: fields rest := by
  have hkept : [run].filter (! ·.isEmpty) = [run] :=
    List.filter_cons_of_pos (by simpa using hne)
  unfold fields
  cases rest with
  | nil =>
      rw [List.append_nil, split_of_forall hrun, hkept]
      rfl
  | cons b rest =>
      have hb := hend b rfl
      rw [split_append_of_separates hb, split_of_forall hrun, split_cons_of_separates hb,
        List.filter_append, hkept]
      rfl

theorem Runs.fields_eq {s : Bytes} {runs : List Bytes} (h : Runs s runs) : fields s = runs := by
  induction h with
  | @nil gap hgap =>
      have hempty := fields_append_of_isSpace hgap []
      rwa [List.append_nil] at hempty
  | cons hgap hne hrun hend _ ih =>
      rw [List.append_assoc, fields_append_of_isSpace hgap, fields_run_append hne hrun hend, ih]

/-- Every text has runs. -/
theorem exists_runs (s : Bytes) : ∃ runs, Runs s runs := by
  have hgap : ∀ b ∈ s.takeWhile isSpace, isSpace b = true := fun b hb => List.mem_takeWhile_imp hb
  have hhead := eq_false_of_mem_head?_dropWhile isSpace s
  cases hlater : s.dropWhile isSpace with
  | nil =>
      have hall : s.takeWhile isSpace = s := by
        rw [← List.append_nil (s.takeWhile isSpace), ← hlater, List.takeWhile_append_dropWhile]
      rw [hall] at hgap
      exact ⟨[], .nil hgap⟩
  | cons c later =>
      rw [hlater] at hhead
      -- the first run is cut off, and what follows it is shorter
      have hne : (c :: later).takeWhile (! isSpace ·) ≠ [] := by
        rw [List.takeWhile_cons_of_pos (by rw [hhead c rfl]; rfl)]
        exact List.cons_ne_nil _ _
      have hsplit : s = s.takeWhile isSpace ++ (c :: later).takeWhile (! isSpace ·)
          ++ (c :: later).dropWhile (! isSpace ·) := by
        rw [List.append_assoc, List.takeWhile_append_dropWhile, ← hlater,
          List.takeWhile_append_dropWhile]
      have hshorter : ((c :: later).dropWhile (! isSpace ·)).length < s.length := by
        have hlength := congrArg List.length hsplit
        have hpos := List.length_pos_iff.2 hne
        rw [List.length_append, List.length_append] at hlength
        omega
      obtain ⟨runs, hruns⟩ := exists_runs ((c :: later).dropWhile (! isSpace ·))
      have hcons := Runs.cons hgap hne
        (fun b hb => by simpa using List.mem_takeWhile_imp hb)
        (fun b hb => by simpa using eq_false_of_mem_head?_dropWhile _ _ b hb) hruns
      rw [← hsplit] at hcons
      exact ⟨_, hcons⟩
termination_by s.length

/-- **The runs of a text** are its fields. -/
theorem runs_iff {s : Bytes} {runs : List Bytes} : Runs s runs ↔ fields s = runs := by
  refine ⟨Runs.fields_eq, ?_⟩
  rintro rfl
  obtain ⟨runs, hruns⟩ := exists_runs s
  rw [hruns.fields_eq]
  exact hruns

end Bytes

end PresenceTable
