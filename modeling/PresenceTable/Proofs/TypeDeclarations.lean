/-
  PresenceTable.Proofs.TypeDeclarations
  ─────────────────────────────────────
  **WHAT A TABLE OF TYPES SAYS.**

  A line of a table declares a type when its content has two runs, and says
  nothing when it has no content.  Any other line is malformed, and the
  first of these ends the reading, also when it would break off later.

  So a table is made from the contents of its lines, in their order, and
  lines without content can be left out or put in.  All that they change is
  under which number a malformed line is reported.

  Main results:
    * `typeOf?_declareAll` — the last declaration of a name counts;
    * `readLines_of_not_malformed` — lines none of which is malformed;
    * `readLines_of_malformed` — the first one that is;
    * `Remarked.contents_eq` — comments and blank lines;
    * `read_spec` — what is read, or why it is not.
-/
import Mathlib.Data.Set.Card
import PresenceTable.Proofs.Cutting
import PresenceTable.Proofs.Listing
import PresenceTable.Proofs.Resumption
import PresenceTable.TypeTable

namespace PresenceTable

namespace TypeTable

/-! ## §1. What a line declares. -/

/-- The content of the line has two runs, a name and a type. -/
def Declares (line name type : Bytes) : Prop :=
  ∃ content, Bytes.IsContent line content ∧ Bytes.Runs content [name, type]

/-- The line has this content, which is something else than a name and a
type. -/
def Malformed (line content : Bytes) : Prop :=
  Bytes.IsContent line content ∧ content ≠ [] ∧ ∀ name type, ¬ Bytes.Runs content [name, type]

/-- The name and the type that the fields are. -/
def pairOf? : List Bytes → Option (Bytes × Bytes)
  | [name, type] => some (name, type)
  | _ => none

theorem pairOf?_eq_some_iff {fields : List Bytes} {name type : Bytes} :
    pairOf? fields = some (name, type) ↔ fields = [name, type] := by
  unfold pairOf?
  split <;> simp_all

/-- The declaration on a line. -/
def declaration? (line : Bytes) : Option (Bytes × Bytes) :=
  pairOf? (Bytes.fields (Bytes.stripComment line))

theorem declaration?_eq_some_iff {line name type : Bytes} :
    declaration? line = some (name, type) ↔ Declares line name type := by
  unfold declaration? Declares
  simp only [pairOf?_eq_some_iff, Bytes.isContent_iff, Bytes.runs_iff, exists_eq_left']

theorem malformed_iff {line content : Bytes} :
    Malformed line content
      ↔ Bytes.stripComment line = content ∧ content ≠ [] ∧ declaration? line = none := by
  unfold Malformed
  rw [Bytes.isContent_iff]
  refine and_congr_right ?_
  rintro rfl
  refine and_congr_right fun _ => ?_
  rw [Option.eq_none_iff_forall_ne_some]
  unfold declaration?
  simp only [ne_eq, Prod.forall, pairOf?_eq_some_iff, Bytes.runs_iff]

instance (line content : Bytes) : Decidable (Malformed line content) :=
  decidable_of_iff _ malformed_iff.symm

/-- One more line, from its content alone. -/
theorem readLine_eq (t : TypeTable) (line : Bytes) (number : UInt32) :
    t.readLine line number
      = if Bytes.stripComment line = [] then .ok t
        else
          match declaration? line with
          | some d => .ok (t.declare d.1 d.2)
          | none => .error (.malformed number (Bytes.stripComment line)) := by
  unfold readLine declaration?
  dsimp only
  split
  · rfl
  · split
    · next heq => rw [heq]; rfl
    · next hnot =>
      have hnone : pairOf? (Bytes.fields (Bytes.stripComment line)) = none := by
        rw [Option.eq_none_iff_forall_ne_some]
        rintro ⟨name, type⟩ hpair
        exact hnot name type (pairOf?_eq_some_iff.1 hpair)
      rw [hnone]

/-! ## §2. Tables of declarations. -/

/-- Declare all of these, one after the other. -/
def declareAll (t : TypeTable) (ds : List (Bytes × Bytes)) : TypeTable :=
  ds.foldl (fun t d => t.declare d.1 d.2) t

/-- **The last declaration of a name** is the one that counts. -/
theorem typeOf?_declareAll (ds : List (Bytes × Bytes)) (name : Bytes) :
    (empty.declareAll ds).typeOf? name = ds.reverse.lookup name := by
  induction ds using List.reverseRecOn with
  | nil => simp [declareAll, empty, typeOf?]
  | append_singleton ds d ih =>
      unfold declareAll at ih ⊢
      rw [List.foldl_append, List.reverse_append]
      show ((List.foldl _ empty ds).declare d.1 d.2).typeOf? name = (d :: ds.reverse).lookup name
      rw [typeOf?_declare, List.lookup_cons, ih]
      by_cases h : d.1 = name
      · rw [if_pos h, beq_iff_eq.2 h.symm]
      · rw [if_neg h, beq_eq_false_iff_ne.2 (Ne.symm h)]

/-- A table has as many types as it has names. -/
theorem size_eq_ncard (t : TypeTable) : t.size = {name | t.typeOf? name ≠ none}.ncard := by
  have hkeys : {name | t.typeOf? name ≠ none} = ↑t.types.keys.toFinset := by
    ext name
    rw [Set.mem_ofPred_eq, List.coe_toFinset, Set.mem_ofPred_eq, Std.ExtTreeMap.mem_keys,
      Std.ExtTreeMap.mem_iff_isSome_getElem?, Option.isSome_iff_ne_none]
    rfl
  rw [hkeys, Set.ncard_coe_finset, List.toFinset_card_of_nodup Std.ExtTreeMap.nodup_keys,
    Std.ExtTreeMap.length_keys]
  rfl

/-- The table that lines declare, when those that declare nothing are left
out. -/
def declared (ls : List Bytes) : TypeTable := empty.declareAll (ls.filterMap declaration?)

section

variable {ls : List Bytes} {name : Bytes}

theorem typeOf?_declared_eq_some_iff {type : Bytes} :
    (declared ls).typeOf? name = some type
      ↔ ∃ before line after, ls = before ++ line :: after ∧ Declares line name type
        ∧ ∀ later ∈ after, ∀ other, ¬ Declares later name other := by
  unfold declared
  simp only [typeOf?_declareAll, lookup_reverse_filterMap_eq_some_iff, ne_eq,
    declaration?_eq_some_iff]

theorem typeOf?_declared_eq_none_iff :
    (declared ls).typeOf? name = none ↔ ∀ line ∈ ls, ∀ type, ¬ Declares line name type := by
  unfold declared
  simp only [typeOf?_declareAll, lookup_reverse_filterMap_eq_none_iff, ne_eq,
    declaration?_eq_some_iff]

/-- Each name is counted once. -/
theorem size_declared (ls : List Bytes) :
    (declared ls).size = {name | ∃ line ∈ ls, ∃ type, Declares line name type}.ncard := by
  rw [size_eq_ncard]
  congr 1
  ext name
  rw [Set.mem_ofPred_eq, Set.mem_ofPred_eq, ne_eq, typeOf?_declared_eq_none_iff]
  simp only [not_forall, not_not, exists_prop]

end

/-! ## §3. Reading lines. -/

/-- The table after these lines, which are numbered from the first one on. -/
def readLines (t : TypeTable) (first : Nat) (ls : List Bytes) : Except ReadError TypeTable :=
  (numbered first ls).foldlM (fun t l => t.readLine l.1 l.2) t

theorem readLines_cons (t : TypeTable) (first : Nat) (line : Bytes) (ls : List Bytes) :
    t.readLines first (line :: ls)
      = t.readLine line (UInt32.ofNat first) >>= fun t => t.readLines (first + 1) ls :=
  rfl

theorem readLines_append (t : TypeTable) (first : Nat) (before ls : List Bytes) :
    t.readLines first (before ++ ls)
      = t.readLines first before >>= fun t => t.readLines (first + before.length) ls := by
  unfold readLines
  rw [numbered_append, List.foldlM_append]

theorem declaration?_of_stripComment_eq_nil {line : Bytes} (h : Bytes.stripComment line = []) :
    declaration? line = none := by
  unfold declaration?
  rw [h]
  rfl

/-- **Lines none of which is malformed** are all read. -/
theorem readLines_of_not_malformed (ls : List Bytes) :
    ∀ (t : TypeTable) (first : Nat), (∀ line ∈ ls, ∀ content, ¬ Malformed line content) →
      t.readLines first ls = .ok (t.declareAll (ls.filterMap declaration?)) := by
  induction ls with
  | nil => intro t first _; rfl
  | cons line ls ih =>
      intro t first h
      have hlater := fun t => ih t (first + 1) fun l hl => h l (List.mem_cons_of_mem _ hl)
      rw [readLines_cons, readLine_eq]
      by_cases hblank : Bytes.stripComment line = []
      · rw [if_pos hblank, List.filterMap_cons_none (declaration?_of_stripComment_eq_nil hblank)]
        exact hlater t
      · rw [if_neg hblank]
        cases hline : declaration? line with
        | none => exact absurd (malformed_iff.2 ⟨rfl, hblank, hline⟩) (h line List.mem_cons_self _)
        | some d =>
            rw [List.filterMap_cons_some hline]
            exact hlater (t.declare d.1 d.2)

/-- **The first malformed line** ends the reading, under its number. -/
theorem readLines_of_malformed (t : TypeTable) (first : Nat) {before after : List Bytes}
    {line content : Bytes} (hbefore : ∀ earlier ∈ before, ∀ c, ¬ Malformed earlier c)
    (hline : Malformed line content) :
    t.readLines first (before ++ line :: after)
      = .error (.malformed (UInt32.ofNat (first + before.length)) content) := by
  obtain ⟨rfl, hne, hnone⟩ := malformed_iff.1 hline
  rw [readLines_append, readLines_of_not_malformed before t first hbefore]
  show (t.declareAll (before.filterMap declaration?)).readLines (first + before.length)
    (line :: after) = _
  rw [readLines_cons, readLine_eq, if_neg hne, hnone]
  rfl

/-- Lines are read before it matters whether the reading broke off. -/
theorem read_eq (input : Input) :
    read input = empty.readLines 1 input.lines >>= fun table =>
      if input.interrupted then .error .interrupted else .ok table :=
  rfl

/-! ## §4. Lines without content. -/

/-- What is wrong with a line, without its number. -/
def ReadError.content? : ReadError → Option Bytes
  | .malformed _ content => some content
  | .interrupted => none

/-- The contents of these lines that are not empty, in their order. -/
def contents (ls : List Bytes) : List Bytes := (ls.map Bytes.stripComment).filter (· ≠ [])

@[simp] theorem contents_append (ls later : List Bytes) :
    contents (ls ++ later) = contents ls ++ contents later := by
  simp [contents]

theorem contents_singleton_of_eq_nil {line : Bytes} (h : Bytes.stripComment line = []) :
    contents [line] = [] := by
  simp [contents, h]

/-- The table after lines with these contents. -/
def readContents (t : TypeTable) (cs : List Bytes) : Except (Option Bytes) TypeTable :=
  cs.foldlM (fun t content =>
    match pairOf? (Bytes.fields content) with
    | some d => .ok (t.declare d.1 d.2)
    | none => .error (some content)) t

/-- **Lines are read by their contents**, but for the numbers in errors. -/
theorem mapError_readLines (ls : List Bytes) :
    ∀ (t : TypeTable) (first : Nat),
      (t.readLines first ls).mapError ReadError.content? = t.readContents (contents ls) := by
  induction ls with
  | nil => intro t first; rfl
  | cons line ls ih =>
      intro t first
      rw [readLines_cons, readLine_eq]
      by_cases hblank : Bytes.stripComment line = []
      · have hcontents : contents (line :: ls) = contents ls := by
          simp [contents, hblank]
        rw [if_pos hblank, hcontents]
        exact ih t (first + 1)
      · have hcontents : contents (line :: ls) = Bytes.stripComment line :: contents ls := by
          simp [contents, hblank]
        rw [if_neg hblank, hcontents]
        unfold readContents declaration?
        rw [List.foldlM_cons]
        cases pairOf? (Bytes.fields (Bytes.stripComment line)) with
        | none => rfl
        | some d => exact ih (t.declare d.1 d.2) (first + 1)

/-- Texts with the same contents make the same table, or have the same wrong
with them. -/
theorem mapError_read_congr {input input' : Input}
    (hcontents : contents input'.lines = contents input.lines)
    (hinterrupted : input'.interrupted = input.interrupted) :
    (read input').mapError ReadError.content? = (read input).mapError ReadError.content? := by
  have hread : ∀ i : Input, (read i).mapError ReadError.content?
      = empty.readContents (contents i.lines) >>= fun table =>
          if i.interrupted then .error none else .ok table := by
    intro i
    rw [read_eq, ← mapError_readLines i.lines empty 1]
    cases empty.readLines 1 i.lines with
    | error error => rfl
    | ok table =>
        show Except.mapError _ (if i.interrupted then _ else _) = if i.interrupted then _ else _
        split <;> rfl
  rw [hread, hread, hcontents, hinterrupted]

/-- The second text is the first one with a comment or a blank line put in. -/
inductive Remarked : Input → Input → Prop
  /-- A line without content, in front of a line or of the end. -/
  | line {ended line rest : Bytes} {interrupted : Bool} (hended : ended.Ended)
      (hline : ∀ b ∈ line, Input.isNewline b = false) (hcontent : Bytes.IsContent line []) :
      Remarked ⟨ended ++ rest, interrupted⟩ ⟨ended ++ line ++ '\n'.toUInt8 :: rest, interrupted⟩
  /-- A last line without content, which is not ended. -/
  | last {ended line : Bytes} {interrupted : Bool} (hended : ended.Ended)
      (hline : ∀ b ∈ line, Input.isNewline b = false) (hcontent : Bytes.IsContent line []) :
      Remarked ⟨ended, interrupted⟩ ⟨ended ++ line, interrupted⟩
  /-- The same, behind a line that was not ended before. -/
  | behind {text line : Bytes} (hline : ∀ b ∈ line, Input.isNewline b = false)
      (hcontent : Bytes.IsContent line []) :
      Remarked ⟨text, false⟩ ⟨text ++ '\n'.toUInt8 :: line, false⟩
  /-- A comment at the end of a line, which may have one already. -/
  | comment {front comment gap back : Bytes} {interrupted : Bool}
      (hcomment : ∀ b ∈ comment, Input.isNewline b = false)
      (hgap : ∀ b ∈ gap, Bytes.isBlank b = true ∧ Input.isNewline b = false)
      (hback : ∀ b ∈ back.head?, Input.isNewline b = true) :
      Remarked ⟨front ++ gap ++ back, interrupted⟩
        ⟨front ++ '#'.toUInt8 :: comment ++ gap ++ back, interrupted⟩

/-- Only lines without content are lost at the end of a text. -/
theorem contents_lines (text : Bytes) :
    contents (Input.lines ⟨text, false⟩) = contents (Bytes.split Input.isNewline text) := by
  rw [Input.lines_of_not_interrupted]
  split
  · next hlast =>
    obtain ⟨pieces, hpieces⟩ := List.getLast?_eq_some_iff.1 hlast
    rw [hpieces, List.dropLast_concat, contents_append, contents_singleton_of_eq_nil rfl,
      List.append_nil]
  · rfl

theorem contents_lines_of_isContent_nil {line : Bytes}
    (hline : ∀ b ∈ line, Input.isNewline b = false) (hcontent : Bytes.IsContent line [])
    (interrupted : Bool) : contents (Input.lines ⟨line, interrupted⟩) = [] := by
  cases interrupted with
  | true =>
      rw [Input.lines_of_broken hline]
      rfl
  | false =>
      rw [contents_lines, Bytes.split_of_forall hline]
      exact contents_singleton_of_eq_nil (Bytes.isContent_iff.1 hcontent)

/-- What stands at the end of a line may be exchanged for other bytes, as long
as the line keeps its content. -/
theorem contents_lines_congr {tail tail' front back : Bytes}
    (htail : ∀ b ∈ tail, Input.isNewline b = false)
    (htail' : ∀ b ∈ tail', Input.isNewline b = false)
    (hback : ∀ b ∈ back.head?, Input.isNewline b = true)
    (hsame : ∀ s : Bytes, Bytes.stripComment (s ++ tail) = Bytes.stripComment (s ++ tail'))
    (interrupted : Bool) :
    contents (Input.lines ⟨front ++ tail ++ back, interrupted⟩)
      = contents (Input.lines ⟨front ++ tail' ++ back, interrupted⟩) := by
  -- in front of that line, both texts are cut alike
  obtain ⟨pieces, last, -, hpieces⟩ := @Bytes.exists_split_append_of_forall Input.isNewline front
  have hcontents : contents (Bytes.split Input.isNewline (front ++ tail))
      = contents (Bytes.split Input.isNewline (front ++ tail')) := by
    rw [hpieces tail htail, hpieces tail' htail', contents_append, contents_append]
    simp only [contents, List.map_cons, hsame last]
  cases back with
  | nil =>
      rw [List.append_nil, List.append_nil]
      cases interrupted with
      | true => rw [Input.lines_of_interrupted, Input.lines_of_interrupted, hpieces tail htail,
          hpieces tail' htail', List.dropLast_concat, List.dropLast_concat]
      | false => rw [contents_lines, contents_lines, hcontents]
  | cons b back =>
      rw [Input.lines_append_newline (hback b rfl), Input.lines_append_newline (hback b rfl),
        contents_append, contents_append, hcontents]

/-- **Comments and blank lines** leave the contents as they are. -/
theorem Remarked.contents_eq {input input' : Input} (h : Remarked input input') :
    contents input'.lines = contents input.lines ∧ input'.interrupted = input.interrupted := by
  have hnewline : Input.isNewline '\n'.toUInt8 = true := by decide
  cases h with
  | @line ended line rest interrupted hended hline hcontent =>
      obtain ⟨ls, -, happend⟩ := Input.exists_lines_append hended
      have hblank := contents_singleton_of_eq_nil (Bytes.isContent_iff.1 hcontent)
      refine ⟨?_, rfl⟩
      rw [List.append_assoc, happend, happend, Input.lines_append_newline hnewline,
        Bytes.split_of_forall hline, contents_append, contents_append, contents_append, hblank,
        List.nil_append]
  | @last ended line interrupted hended hline hcontent =>
      obtain ⟨ls, -, happend⟩ := Input.exists_lines_append hended
      have hlines := happend [] interrupted
      rw [List.append_nil, Input.lines_empty, List.append_nil] at hlines
      refine ⟨?_, rfl⟩
      rw [happend, hlines, contents_append, contents_lines_of_isContent_nil hline hcontent,
        List.append_nil]
  | @behind text line hline hcontent =>
      refine ⟨?_, rfl⟩
      rw [Input.lines_append_newline hnewline, contents_append,
        contents_lines_of_isContent_nil hline hcontent, List.append_nil, contents_lines]
  | @comment front comment gap back interrupted hcomment hgap hback =>
      have hblank : ∀ b ∈ gap, Bytes.isBlank b = true := fun b hb => (hgap b hb).1
      have hwithout : ∀ b ∈ gap, Input.isNewline b = false := fun b hb => (hgap b hb).2
      have hwith : ∀ b ∈ '#'.toUInt8 :: comment ++ gap, Input.isNewline b = false := by
        rintro b (_ | ⟨_, hb⟩)
        · decide
        · exact (List.mem_append.1 hb).elim (hcomment b) (hwithout b)
      refine ⟨?_, rfl⟩
      rw [List.append_assoc front]
      refine contents_lines_congr hwith hwithout hback (fun last => ?_) interrupted
      rw [List.cons_append, Bytes.stripComment_append_comment,
        Bytes.stripComment_append_of_isBlank hblank]

/-- Any number of comments and blank lines make no difference but to numbers. -/
theorem mapError_read_of_remarked {input input' : Input}
    (h : Relation.ReflTransGen Remarked input input') :
    (read input').mapError ReadError.content? = (read input).mapError ReadError.content? := by
  induction h with
  | refl => rfl
  | tail _ hstep ih =>
      obtain ⟨hcontents, hinterrupted⟩ := hstep.contents_eq
      rw [mapError_read_congr hcontents hinterrupted, ih]

/-! ## §5. What is read. -/

/-- A line that is not malformed has no content, or it declares a type. -/
theorem not_malformed_iff {line : Bytes} :
    (∀ content, ¬ Malformed line content)
      ↔ Bytes.IsContent line [] ∨ ∃ name type, Declares line name type := by
  simp only [malformed_iff, Bytes.isContent_iff, ← declaration?_eq_some_iff]
  constructor
  · intro h
    by_cases hblank : Bytes.stripComment line = []
    · exact .inl hblank
    · cases hline : declaration? line with
      | none => exact absurd ⟨rfl, hblank, hline⟩ (h _)
      | some d => exact .inr ⟨d.1, d.2, rfl⟩
  · rintro (hblank | ⟨name, type, hline⟩) content ⟨rfl, hne, hnone⟩
    · exact hne hblank
    · cases hline.symm.trans hnone

/-- If some line is malformed, there is a first one. -/
theorem exists_first_malformed {ls : List Bytes}
    (h : ∃ line ∈ ls, ∃ content, Malformed line content) :
    ∃ before line after content, ls = before ++ line :: after ∧ Malformed line content
      ∧ ∀ earlier ∈ before, ∀ c, ¬ Malformed earlier c := by
  induction ls with
  | nil =>
      obtain ⟨_, hmem, -⟩ := h
      cases hmem
  | cons first ls ih =>
      by_cases hfirst : ∃ content, Malformed first content
      · obtain ⟨content, hcontent⟩ := hfirst
        exact ⟨[], first, ls, content, rfl, hcontent, fun _ hmem => absurd hmem List.not_mem_nil⟩
      · obtain ⟨line, hmem, hline⟩ := h
        rcases List.mem_cons.1 hmem with rfl | hmem
        · exact absurd hline hfirst
        · obtain ⟨before, line, after, content, rfl, hcontent, hbefore⟩ := ih ⟨line, hmem, hline⟩
          refine ⟨first :: before, line, after, content, rfl, hcontent, ?_⟩
          intro earlier hearlier c hc
          rcases List.mem_cons.1 hearlier with rfl | hmem
          · exact hfirst ⟨c, hc⟩
          · exact hbefore earlier hmem c hc

/-- A malformed line is reported whatever comes behind it, also when the
reading broke off. -/
theorem read_of_malformed {input : Input} {before after : List Bytes} {line content : Bytes}
    (hsplit : input.lines = before ++ line :: after)
    (hbefore : ∀ earlier ∈ before, ∀ c, ¬ Malformed earlier c)
    (hline : Malformed line content) :
    read input = .error (.malformed (UInt32.ofNat (before.length + 1)) content) := by
  rw [read_eq, hsplit, readLines_of_malformed _ _ hbefore hline, Nat.add_comm 1]
  rfl

/-- A text is read when its reading does not break off and none of its lines
is malformed. -/
theorem read_eq_ok_iff {input : Input} {table : TypeTable} :
    read input = .ok table
      ↔ input.interrupted = false ∧ (∀ line ∈ input.lines, ∀ content, ¬ Malformed line content)
        ∧ table = declared input.lines := by
  by_cases hlines : ∃ line ∈ input.lines, ∃ content, Malformed line content
  · obtain ⟨before, line, after, content, hsplit, hline, hbefore⟩ := exists_first_malformed hlines
    rw [read_of_malformed hsplit hbefore hline]
    refine iff_of_false nofun ?_
    rintro ⟨-, hnone, -⟩
    exact hnone line (by simp [hsplit]) content hline
  · have hnone : ∀ line ∈ input.lines, ∀ content, ¬ Malformed line content :=
      fun line hmem content hcontent => hlines ⟨line, hmem, content, hcontent⟩
    rw [read_eq, readLines_of_not_malformed _ _ _ hnone]
    rw [and_iff_right hnone]
    show (if input.interrupted then _ else _) = _ ↔ _
    cases input.interrupted <;> simp [declared, eq_comm]

/-- **What is read, or why it is not.**  A text is read when its reading does
not break off and each of its lines has no content or declares a type.  A name
then has the type of the last line that declares it, and the size is the number
of names that are declared.  If a line is malformed, the first of these is
reported, by its number, which is kept in 32 bits, and by its content, whatever
comes later.  If none is, but the reading broke off, that is reported.  And
comments and blank lines make no difference but to numbers. -/
theorem read_spec (input : Input) :
    ((∃ table, read input = .ok table)
        ↔ input.interrupted = false
          ∧ ∀ line ∈ input.lines, Bytes.IsContent line [] ∨ ∃ name type, Declares line name type)
      ∧ (∀ table, read input = .ok table →
          (∀ name type, table.typeOf? name = some type
              ↔ ∃ before line after, input.lines = before ++ line :: after
                  ∧ Declares line name type
                  ∧ ∀ later ∈ after, ∀ other, ¬ Declares later name other)
            ∧ (∀ name, table.typeOf? name = none
                ↔ ∀ line ∈ input.lines, ∀ type, ¬ Declares line name type)
            ∧ table.size = {name | ∃ line ∈ input.lines, ∃ type, Declares line name type}.ncard)
      ∧ ((∃ line ∈ input.lines, ∃ content, Malformed line content) →
          ∃ before line after content, input.lines = before ++ line :: after
            ∧ Malformed line content
            ∧ (∀ earlier ∈ before, ∀ c, ¬ Malformed earlier c)
            ∧ ∃ error, read input = .error error
              ∧ ∀ source, error.message source
                  = source ++ ":" ++ Bytes.decimal ((before.length + 1) % UInt32.size)
                    ++ ": malformed variable declaration '" ++ content
                    ++ "' (expected '<name> <type>')")
      ∧ ((∀ line ∈ input.lines, ∀ content, ¬ Malformed line content) → input.interrupted = true →
          ∃ error, read input = .error error
            ∧ ∀ source, error.message source = "error while reading " ++ source)
      ∧ ∀ input', Relation.ReflTransGen Remarked input input' →
          (read input').mapError ReadError.content? = (read input).mapError ReadError.content? := by
  refine ⟨?_, ?_, ?_, ?_, fun _ => mapError_read_of_remarked⟩
  · simp only [read_eq_ok_iff, ← not_malformed_iff, exists_and_left, exists_eq, and_true]
  · intro table htable
    obtain ⟨-, -, rfl⟩ := read_eq_ok_iff.1 htable
    exact ⟨fun _ _ => typeOf?_declared_eq_some_iff, fun _ => typeOf?_declared_eq_none_iff,
      size_declared input.lines⟩
  · intro hlines
    obtain ⟨before, line, after, content, hsplit, hline, hbefore⟩ := exists_first_malformed hlines
    refine ⟨before, line, after, content, hsplit, hline, hbefore, _,
      read_of_malformed hsplit hbefore hline, fun _ => rfl⟩
  · intro hnone hinterrupted
    refine ⟨.interrupted, ?_, fun _ => rfl⟩
    rw [read_eq, readLines_of_not_malformed _ _ _ hnone, hinterrupted]
    rfl

example :
    (read ⟨"A tristate # not bool\n \t\r\nA\x0bbool#\n\x0c\nB\n", true⟩).map size
      = .error (.malformed 4 "\x0c") := by
  decide +kernel

end TypeTable

end PresenceTable
