/-
  PresenceTable.Proofs.Model
  ──────────────────────────
  **THE WRITTEN TABLE.**

  From the text of a listing to the text of its table.  A conversion
  records trees (`Conversion.Holds`), the table keeps the last record of a
  file, and the last record of a file comes from its last line; so a line
  of the table is a matter of one line of the listing and of the types.

  Main results:
    * `compare_eq_lt_iff` — the table is ordered byte by byte;
    * `lookup_trees` — the last tree of a file, from its last line;
    * `Model.write_ok` — a table of printable ids is written;
    * `write_listing` — the table of a listing.
-/
import PresenceTable.Proofs.Conversion
import PresenceTable.Proofs.Listing

namespace PresenceTable

/-! ## §1. The order of the bytes. -/

theorem Bytes.compare_eq_lt_iff {s t : Bytes} : compare s t = .lt ↔ s < t := by
  induction s generalizing t with
  | nil =>
      cases t with
      | nil => simp
      | cons b t => simp [compare, List.compareLex_nil_cons]
  | cons a s ih =>
      cases t with
      | nil => simp [compare, List.compareLex_cons_nil]
      | cons b t =>
          rw [List.cons_lt_cons_iff, ← ih]
          show List.compareLex compare (a :: s) (b :: t) = .lt ↔ _
          rw [List.compareLex_cons_cons, Ordering.then_eq_lt, Std.compare_eq_lt,
            Std.compare_eq_iff_eq]
          rfl

/-! ## §2. The last tree of a file. -/

/-- The tree that a file keeps for its last condition. -/
def finalTree (erased : Name → Bool) (condition : Bytes) : Formula :=
  (usable? erased condition).getD .bot

theorem lookup_lineTrees_of_gives (erased : Name → Bool) {line path condition : Bytes}
    (h : ListingLine.Gives line path condition) :
    (lineTrees erased line).reverse.lookup path = some (finalTree erased condition) := by
  unfold lineTrees finalTree
  rw [ListingLine.ofText_eq_entry_iff_gives.2 h]
  cases hu : usable? erased condition <;> simp [hu]

/-- A line records trees for the file that it gives only. -/
theorem gives_of_mem_lineTrees {erased : Name → Bool} {line : Bytes} {row : Bytes × Formula}
    (h : row ∈ lineTrees erased line) : ∃ c, ListingLine.Gives line row.1 c := by
  unfold lineTrees at h
  cases hline : ListingLine.ofText line with
  | blank | malformed => rw [hline] at h; cases h
  | entry path condition =>
      rw [hline] at h
      have hpath : row.1 = path := by
        rcases List.mem_cons.1 h with rfl | hmem
        · rfl
        · obtain ⟨f, -, rfl⟩ := List.mem_map.1 hmem
          rfl
      rw [hpath]
      exact ⟨condition, ListingLine.ofText_eq_entry_iff_gives.1 hline⟩

theorem lookup_lineTrees_of_not_gives (erased : Name → Bool) {line path : Bytes}
    (h : ∀ condition, ¬ ListingLine.Gives line path condition) :
    (lineTrees erased line).reverse.lookup path = none := by
  rw [List.lookup_eq_none_iff]
  intro row hrow
  obtain ⟨c, hc⟩ := gives_of_mem_lineTrees (List.mem_reverse.1 hrow)
  have hne : path ≠ row.1 := fun heq => h c (heq ▸ hc)
  simpa using hne

/-- **The last tree of a file comes from its last line.** -/
theorem lookup_trees (erased : Name → Bool) (lines : List Bytes) (path : Bytes) :
    (lines.flatMap (lineTrees erased)).reverse.lookup path
      = (ListingLine.lastCondition? lines path).map (finalTree erased) := by
  -- from the end of the listing, where the line that counts is the first one met
  induction lines using List.reverseRecOn with
  | nil => rfl
  | append_singleton lines line ih =>
      rw [List.flatMap_append, List.reverse_append, List.lookup_append, List.flatMap_singleton]
      by_cases hline : ∃ c, ListingLine.Gives line path c
      · obtain ⟨c, hc⟩ := hline
        rw [lookup_lineTrees_of_gives erased hc,
          ListingLine.lastCondition?_append_of_gives lines hc]
        rfl
      · have hnot : ∀ c, ¬ ListingLine.Gives line path c := fun c hc => hline ⟨c, hc⟩
        rw [lookup_lineTrees_of_not_gives erased hnot,
          ListingLine.lastCondition?_append_of_not_gives lines hnot, ← ih]
        rfl

/-- Looking up a record and looking up its tree find the same. -/
theorem lookup_of_holds {s : Store} {records : List Record} {rows : List (Bytes × Formula)}
    (h : List.Forall₂ s.Holds records rows) (path : Bytes) :
    Option.Rel s.Denotes (records.lookup path) (rows.lookup path) := by
  induction h with
  | nil => exact .none
  | cons hr _ ih =>
      obtain ⟨hpath, hden⟩ := hr
      rw [List.lookup_cons, List.lookup_cons, hpath]
      split
      · exact .some hden
      · exact ih

/-! ## §3. The table. -/

namespace Model

theorem addAll_append (m : Model) (records later : List Record) :
    m.addAll (records ++ later) = (m.addAll records).addAll later :=
  List.foldl_append

/-- **A file keeps its last record.** -/
theorem get?_addAll (records : List Record) (path : Bytes) :
    (empty.addAll records).get? path = records.reverse.lookup path := by
  induction records using List.reverseRecOn with
  | nil => simp [addAll, empty, get?]
  | append_singleton records r ih =>
      rw [addAll_append, List.reverse_append]
      show ((empty.addAll records).add r).get? path = (r :: records.reverse).lookup path
      rw [get?_add, List.lookup_cons, ih]
      by_cases h : r.1 = path
      · rw [if_pos h, beq_iff_eq.2 h.symm]
      · rw [if_neg h, beq_eq_false_iff_ne.2 (Ne.symm h)]

theorem mem_entries_iff {m : Model} {path : Bytes} {id : NodeId} :
    (path, id) ∈ m.entries ↔ m.get? path = some id :=
  Std.ExtTreeMap.mem_toList_iff_getElem?_eq_some

/-- The paths of a table stand in the order of their bytes. -/
theorem pairwise_lt_paths (m : Model) : (m.entries.map Prod.fst).Pairwise (· < ·) := by
  refine List.pairwise_map.2 (m.pairwise_lt_entries.imp fun hlt => ?_)
  exact Bytes.compare_eq_lt_iff.1 hlt

theorem line_of_printed {store : Store} {r : Record} {text : Bytes}
    (h : store.print r.2 = .ok text) : line store r = .ok (r.1 ++ ";" ++ text ++ "\n") := by
  unfold line
  rw [h]
  rfl

/-- **A table of printable ids is written**, one line for each entry. -/
theorem write_ok {m : Model} {store : Store} {written : NodeId → Bytes}
    (h : ∀ r ∈ m.entries, store.print r.2 = .ok (written r.2)) :
    m.write store
      = .ok (m.entries.flatMap fun r => r.1 ++ ";" ++ written r.2 ++ "\n") := by
  have hlines : ∀ rs : List Record, (∀ r ∈ rs, store.print r.2 = .ok (written r.2)) →
      rs.mapM (line store) = .ok (rs.map fun r => r.1 ++ ";" ++ written r.2 ++ "\n") := by
    intro rs
    induction rs with
    | nil => intro _; rfl
    | cons r rs ih =>
        intro hrs
        have hfirst := line_of_printed (hrs r List.mem_cons_self)
        have hrest := ih fun r hr => hrs r (List.mem_cons_of_mem _ hr)
        rw [List.mapM_cons, hfirst, hrest]
        rfl
  unfold write
  rw [hlines m.entries h, List.flatMap_def]
  rfl

end Model

/-! ## §4. The table of a listing. -/

/-- The text is what the table says for the condition: the condition after
elimination, if it is not marked as invalid and can be read, and `false`
otherwise. -/
def WrittenFor (types : TypeTable) (condition text : Bytes) : Prop :=
  (¬ invalidMarker <:+: condition
      ∧ ∃ f : Formula, f.SpelledBy condition ∧ text = (f.eliminate types.erases).print)
    ∨ ((invalidMarker <:+: condition ∨ ¬ ∃ f : Formula, f.SpelledBy condition)
      ∧ text = "false")

theorem writtenFor_finalTree (types : TypeTable) (condition : Bytes) :
    WrittenFor types condition (finalTree types.erases condition).print := by
  unfold finalTree
  by_cases hspelled : ∃ f : Formula, f.SpelledBy condition
  · cases hmarker : Bytes.occursIn invalidMarker condition with
    | true =>
        have hnone : usable? types.erases condition = none := by simp [usable?, hmarker]
        rw [hnone]
        exact .inr ⟨.inl ((Bytes.occursIn_iff _ _).1 hmarker), rfl⟩
    | false =>
        obtain ⟨f, hf⟩ := hspelled
        rw [usable?_of_spelledBy hmarker hf]
        refine .inl ⟨fun hinfix => ?_, f, hf, rfl⟩
        rw [(Bytes.occursIn_iff _ _).2 hinfix] at hmarker
        cases hmarker
  · rw [usable?_of_not_spelledBy hspelled]
    exact .inr ⟨.inr hspelled, rfl⟩

/-- The table names the last tree of each file. -/
theorem Conversion.Holds.get?_model {erased : Name → Bool} {c : Conversion}
    {lines : List Bytes} (hc : c.Holds (lines.flatMap (lineTrees erased))) (path : Bytes) :
    Option.Rel c.store.Denotes (c.model.get? path)
      ((ListingLine.lastCondition? lines path).map (finalTree erased)) := by
  unfold model
  rw [Model.get?_addAll, ← lookup_trees]
  exact lookup_of_holds (List.rel_reverse hc.records) path

theorem Conversion.Holds.of_mem_entries {erased : Name → Bool} {c : Conversion}
    {lines : List Bytes} (hc : c.Holds (lines.flatMap (lineTrees erased))) {path : Bytes}
    {id : NodeId} (h : (path, id) ∈ c.model.entries) :
    ∃ condition, ListingLine.lastCondition? lines path = some condition
      ∧ c.store.print id = .ok (finalTree erased condition).print := by
  have hrel := hc.get?_model path
  rw [Model.mem_entries_iff.1 h] at hrel
  cases hlast : ListingLine.lastCondition? lines path with
  | none => rw [hlast] at hrel; cases hrel
  | some condition =>
      rw [hlast] at hrel
      cases hrel with
      | some hden => exact ⟨condition, rfl, hc.wellFormed.print_eq hden⟩

theorem Conversion.Holds.exists_mem_entries {erased : Name → Bool} {c : Conversion}
    {lines : List Bytes} (hc : c.Holds (lines.flatMap (lineTrees erased)))
    {path condition : Bytes} (h : ListingLine.lastCondition? lines path = some condition) :
    ∃ id, (path, id) ∈ c.model.entries := by
  have hrel := hc.get?_model path
  rw [h] at hrel
  cases hget : c.model.get? path with
  | none => rw [hget] at hrel; cases hrel
  | some id => exact ⟨id, Model.mem_entries_iff.2 hget⟩

/-- The table has the files that some line gives, and no others. -/
theorem Conversion.Holds.mem_paths_iff {erased : Name → Bool} {c : Conversion}
    {lines : List Bytes} (hc : c.Holds (lines.flatMap (lineTrees erased))) (path : Bytes) :
    path ∈ c.model.entries.map Prod.fst ↔
      ∃ line ∈ lines, ∃ condition, ListingLine.Gives line path condition := by
  constructor
  · intro hmem
    obtain ⟨r, hr, rfl⟩ := List.mem_map.1 hmem
    obtain ⟨condition, hlast, -⟩ := hc.of_mem_entries hr
    obtain ⟨before, line, after, rfl, hgives, -⟩ := ListingLine.lastCondition?_eq_some hlast
    exact ⟨line, List.mem_append_right _ List.mem_cons_self, condition, hgives⟩
  · intro hline
    obtain ⟨line, hmem, condition, hgives⟩ := hline
    obtain ⟨last, hlast⟩ := ListingLine.exists_lastCondition? hmem hgives
    obtain ⟨id, hid⟩ := hc.exists_mem_entries hlast
    exact List.mem_map.2 ⟨(path, id), hid, rfl⟩

/-- What the store prints for an id, if it prints anything. -/
def Store.printed (s : Store) (id : NodeId) : Bytes := (s.print id).toOption.getD []

theorem Store.printed_eq {s : Store} {id : NodeId} {text : Bytes} (h : s.print id = .ok text) :
    s.printed id = text := by
  unfold printed
  rw [h]
  rfl

theorem Conversion.Holds.print_eq {erased : Name → Bool} {c : Conversion}
    {lines : List Bytes} (hc : c.Holds (lines.flatMap (lineTrees erased))) :
    ∀ r ∈ c.model.entries, c.store.print r.2 = .ok (c.store.printed r.2) := by
  intro r hr
  obtain ⟨condition, -, hprint⟩ := hc.of_mem_entries hr
  rw [Store.printed_eq hprint]
  exact hprint

/-- **The table of a listing.**  It has one line for each file that some
line of the listing gives, in the order of the bytes of the paths, and what
it says for a file depends on the last line of that file alone. -/
theorem write_listing (types : TypeTable) (text : Bytes)
    {answer : Except ConversionError Unit} {c : Conversion}
    (h : Conversion.start.listing types.erases ⟨text, false⟩ = (answer, c))
    (hsize : c.store.size < UInt32.size - 1) :
    answer = .ok () ∧ ∃ rows : List (Bytes × Bytes),
      c.model.write c.store = .ok (rows.flatMap fun row => row.1 ++ ";" ++ row.2 ++ "\n")
        ∧ (rows.map Prod.fst).Pairwise (· < ·)
        ∧ (∀ path, path ∈ rows.map Prod.fst ↔
            ∃ line ∈ Input.lines ⟨text, false⟩, ∃ condition,
              ListingLine.Gives line path condition)
        ∧ ∀ path written, (path, written) ∈ rows →
            ∃ before line after condition,
              Input.lines ⟨text, false⟩ = before ++ line :: after
                ∧ ListingLine.Gives line path condition
                ∧ (∀ later ∈ after, ∀ other, ¬ ListingLine.Gives later path other)
                ∧ WrittenFor types condition written := by
  have hlisting := Conversion.holds_start.listing types.erases ⟨text, false⟩
  rw [h] at hlisting
  obtain ⟨hok, hc⟩ := hlisting (show c.store.size ≤ UInt32.size by omega)
  rw [List.nil_append] at hc
  have hpaths : (c.model.entries.map fun r => (r.1, c.store.printed r.2)).map Prod.fst
      = c.model.entries.map Prod.fst := by
    rw [List.map_map]
    rfl
  refine ⟨hok, c.model.entries.map fun r => (r.1, c.store.printed r.2), ?_, ?_, ?_, ?_⟩
  · rw [Model.write_ok hc.print_eq, List.flatMap_map]
  · rw [hpaths]
    exact c.model.pairwise_lt_paths
  · rw [hpaths]
    exact hc.mem_paths_iff
  · intro path written hmem
    obtain ⟨r, hr, heq⟩ := List.mem_map.1 hmem
    cases heq
    obtain ⟨condition, hlast, hprint⟩ := hc.of_mem_entries hr
    obtain ⟨before, line, after, hlines, hgives, hafter⟩ :=
      ListingLine.lastCondition?_eq_some hlast
    refine ⟨before, line, after, condition, hlines, hgives, hafter, ?_⟩
    rw [Store.printed_eq hprint]
    exact writtenFor_finalTree types condition

/-- A listing with two lines for one file and a line that is marked as invalid. -/
theorem write_listing_two_files :
    ∃ c : Conversion,
      Conversion.start.listing (TypeTable.empty.declare "X" "bool").erases
          ⟨"b.c: A && !B_MODULE\na.c: InvalidExpression()\nb.c: X_MODULE || (C)\n", false⟩
        = (.ok (), c)
      ∧ c.model.write c.store = .ok "a.c;false\nb.c;C\n"
      ∧ ∃ rows : List (Bytes × Bytes),
        c.model.write c.store = .ok (rows.flatMap fun row => row.1 ++ ";" ++ row.2 ++ "\n")
          ∧ (rows.map Prod.fst).Pairwise (· < ·)
          ∧ ∀ path written, (path, written) ∈ rows → ∃ line condition,
              ListingLine.Gives line path condition
                ∧ WrittenFor (TypeTable.empty.declare "X" "bool") condition written := by
  obtain ⟨hok, rows, hwrite, hsorted, -, hrows⟩ :=
    write_listing (TypeTable.empty.declare "X" "bool")
      "b.c: A && !B_MODULE\na.c: InvalidExpression()\nb.c: X_MODULE || (C)\n"
      (Prod.eta _).symm (by decide +kernel)
  refine ⟨_, Prod.ext hok rfl, by decide +kernel, rows, hwrite, hsorted, ?_⟩
  intro path written hmem
  obtain ⟨_, line, _, condition, _, hgives, _, hwritten⟩ := hrows path written hmem
  exact ⟨line, condition, hgives, hwritten⟩

end PresenceTable
