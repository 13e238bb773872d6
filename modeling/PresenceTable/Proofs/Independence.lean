/-
  PresenceTable.Proofs.Independence
  ─────────────────────────────────
  **WHAT THE TABLE DEPENDS ON.**

  A file owes its line in the table to the last line that gives it, and the
  lines of the table are sorted.  So it does not matter how the lines of
  different files are mixed, what stands between them that gives no file,
  how lines are numbered, or which conditions the store held before: ids
  differ from run to run, but the trees they stand for do not.

  Main results:
    * `lastCondition?_linesOf` — a file depends on its own lines;
    * `Conversion.Holds.writes` — the table, from the lines alone;
    * `writes_of_linesOf_eq` — two runs that agree on the lines of each
      file write the same table.
-/
import Mathlib.Data.List.Sort
import PresenceTable.Proofs.Model

namespace PresenceTable

/-! ## §1. The lines of a file. -/

namespace ListingLine

theorem fileOf?_fst_eq_some_iff {line path : Bytes} :
    (ofText line).fileOf?.map Prod.fst = some path ↔ ∃ condition, Gives line path condition := by
  rw [Option.map_eq_some_iff]
  constructor
  · rintro ⟨⟨p, condition⟩, hfile, rfl⟩
    exact ⟨condition, fileOf?_eq_some_iff_gives.1 hfile⟩
  · rintro ⟨condition, h⟩
    exact ⟨(path, condition), fileOf?_eq_some_iff_gives.2 h, rfl⟩

instance decidableGives (line path : Bytes) : Decidable (∃ condition, Gives line path condition) :=
  decidable_of_iff _ fileOf?_fst_eq_some_iff

/-- The lines that give the file, in their order. -/
def linesOf (lines : List Bytes) (path : Bytes) : List Bytes :=
  lines.filter fun line => ∃ condition, Gives line path condition

theorem linesOf_append (lines later : List Bytes) (path : Bytes) :
    linesOf (lines ++ later) path = linesOf lines path ++ linesOf later path :=
  List.filter_append ..

theorem linesOf_eq_nil_iff {lines : List Bytes} {path : Bytes} :
    linesOf lines path = [] ↔ ¬ ∃ line ∈ lines, ∃ condition, Gives line path condition := by
  simp [linesOf, List.filter_eq_nil_iff]

/-- The files that some line gives. -/
def filesOf (lines : List Bytes) : List Bytes :=
  lines.filterMap fun line => (ofText line).fileOf?.map Prod.fst

theorem mem_filesOf_iff {lines : List Bytes} {path : Bytes} :
    path ∈ filesOf lines ↔ ∃ line ∈ lines, ∃ condition, Gives line path condition := by
  simp only [filesOf, List.mem_filterMap, fileOf?_fst_eq_some_iff]

/-- To agree on every file is to agree on those that some line gives. -/
theorem forall_linesOf_eq {lines lines' : List Bytes}
    (h : ∀ path ∈ filesOf (lines ++ lines'), linesOf lines path = linesOf lines' path) :
    ∀ path, linesOf lines path = linesOf lines' path := by
  intro path
  by_cases hmem : path ∈ filesOf (lines ++ lines')
  · exact h path hmem
  · rw [mem_filesOf_iff] at hmem
    have hnone : linesOf lines path = [] := by
      rw [linesOf_eq_nil_iff]
      rintro ⟨line, hline, hgives⟩
      exact hmem ⟨line, List.mem_append_left _ hline, hgives⟩
    have hnone' : linesOf lines' path = [] := by
      rw [linesOf_eq_nil_iff]
      rintro ⟨line, hline, hgives⟩
      exact hmem ⟨line, List.mem_append_right _ hline, hgives⟩
    rw [hnone, hnone']

/-- **The last condition of a file is found among its own lines.** -/
theorem lastCondition?_linesOf (lines : List Bytes) (path : Bytes) :
    lastCondition? (linesOf lines path) path = lastCondition? lines path := by
  induction lines using List.reverseRecOn with
  | nil => rfl
  | append_singleton lines line ih =>
      rw [linesOf_append]
      by_cases hline : ∃ condition, Gives line path condition
      · obtain ⟨condition, h⟩ := hline
        have hlast : linesOf [line] path = [line] := by
          unfold linesOf
          rw [List.filter_cons_of_pos (by simpa using ⟨condition, h⟩), List.filter_nil]
        rw [hlast, lastCondition?_append_of_gives _ h, lastCondition?_append_of_gives _ h]
      · have hlast : linesOf [line] path = [] := by
          rw [linesOf_eq_nil_iff]
          simpa using hline
        have hnot : ∀ condition, ¬ Gives line path condition := fun c hc => hline ⟨c, hc⟩
        rw [hlast, List.append_nil, lastCondition?_append_of_not_gives _ hnot, ih]

end ListingLine

/-! ## §2. The table, from the lines alone. -/

/-- The tree that the lines leave to a file. -/
def fileTree (erased : Name → Bool) (lines : List Bytes) (path : Bytes) : Formula :=
  ((ListingLine.lastCondition? lines path).map (finalTree erased)).getD .bot

theorem fileTree_congr (erased : Name → Bool) {lines lines' : List Bytes} {path : Bytes}
    (h : ListingLine.linesOf lines path = ListingLine.linesOf lines' path) :
    fileTree erased lines path = fileTree erased lines' path := by
  unfold fileTree
  rw [← ListingLine.lastCondition?_linesOf lines, h, ListingLine.lastCondition?_linesOf]

namespace Conversion

/-- The table that the conversion has come to is written as this text. -/
def Writes (c : Conversion) (text : Bytes) : Prop := c.model.write c.store = .ok text

/-- The files of a conversion, in the order of the table. -/
def paths (c : Conversion) : List Bytes := c.model.entries.map Prod.fst

/-- **The table is written from the trees that the lines leave.** -/
theorem Holds.writes {erased : Name → Bool} {c : Conversion} {lines : List Bytes}
    (hc : c.Holds (lines.flatMap (lineTrees erased))) :
    c.Writes (c.paths.flatMap fun path =>
      path ++ ";" ++ (fileTree erased lines path).print ++ "\n") := by
  unfold Writes paths
  rw [Model.write_ok hc.print_eq, List.flatMap_map]
  refine congrArg Except.ok (List.flatMap_congr fun r hr => ?_)
  obtain ⟨condition, hlast, hprint⟩ := hc.of_mem_entries hr
  have htree : fileTree erased lines r.1 = finalTree erased condition := by
    simp [fileTree, hlast]
  rw [Store.printed_eq hprint, htree]

theorem Holds.mem_paths_iff_linesOf {erased : Name → Bool} {c : Conversion}
    {lines : List Bytes} (hc : c.Holds (lines.flatMap (lineTrees erased))) (path : Bytes) :
    path ∈ c.paths ↔ ListingLine.linesOf lines path ≠ [] := by
  rw [ne_eq, ListingLine.linesOf_eq_nil_iff, not_not]
  exact hc.mem_paths_iff path

/-- Conversions of lines that agree on each file come to the same files. -/
theorem Holds.paths_eq {erased : Name → Bool} {c d : Conversion} {lines lines' : List Bytes}
    (hc : c.Holds (lines.flatMap (lineTrees erased)))
    (hd : d.Holds (lines'.flatMap (lineTrees erased)))
    (hsame : ∀ path, ListingLine.linesOf lines path = ListingLine.linesOf lines' path) :
    c.paths = d.paths := by
  -- both are sorted, so it is enough that they have the same members
  refine c.model.pairwise_lt_paths.eq_of_mem_iff d.model.pairwise_lt_paths fun path => ?_
  have hfiles := hd.mem_paths_iff_linesOf path
  rw [← hsame] at hfiles
  exact (hc.mem_paths_iff_linesOf path).trans hfiles.symm

theorem Holds.writes_same {erased : Name → Bool} {c d : Conversion} {lines lines' : List Bytes}
    (hc : c.Holds (lines.flatMap (lineTrees erased)))
    (hd : d.Holds (lines'.flatMap (lineTrees erased)))
    (hsame : ∀ path, ListingLine.linesOf lines path = ListingLine.linesOf lines' path) :
    ∃ text, c.Writes text ∧ d.Writes text := by
  refine ⟨_, hc.writes, ?_⟩
  rw [hc.paths_eq hd hsame]
  have htree : fileTree erased lines = fileTree erased lines' := by
    funext path
    exact fileTree_congr erased (hsame path)
  rw [htree]
  exact hd.writes

/-! ## §3. Two runs. -/

/-- A run over lines, from any well-formed store and with no records, holds
the trees of the lines. -/
theorem holds_lines {s : Store} (hs : s.WellFormed) (erased : Name → Bool)
    (ls : List (Bytes × UInt32))
    (hsize : (({ store := s } : Conversion).lines erased ls).2.store.size ≤ UInt32.size) :
    (({ store := s } : Conversion).lines erased ls).1 = .ok ()
      ∧ (({ store := s } : Conversion).lines erased ls).2.Holds
          ((ls.map Prod.fst).flatMap (lineTrees erased)) := by
  have hstart : ({ store := s } : Conversion).Holds [] := ⟨hs, .nil⟩
  rw [List.flatMap_map]
  exact hstart.lines erased ls hsize

/-- **The table depends on the lines of each file alone.**  Two runs, from
any two stores, over lines that agree for each file on the lines that give
it, write the same table; so do the conversions of two listings. -/
theorem writes_of_linesOf_eq {s t : Store} (hs : s.WellFormed) (ht : t.WellFormed)
    (types : TypeTable) :
    (∀ ls ms : List (Bytes × UInt32),
        (∀ path, ListingLine.linesOf (ls.map Prod.fst) path
          = ListingLine.linesOf (ms.map Prod.fst) path) →
        (({ store := s } : Conversion).lines types.erases ls).2.store.size < UInt32.size - 1 →
        (({ store := t } : Conversion).lines types.erases ms).2.store.size < UInt32.size - 1 →
        (({ store := s } : Conversion).lines types.erases ls).1 = .ok ()
          ∧ (({ store := t } : Conversion).lines types.erases ms).1 = .ok ()
          ∧ ∃ text, (({ store := s } : Conversion).lines types.erases ls).2.Writes text
              ∧ (({ store := t } : Conversion).lines types.erases ms).2.Writes text)
    ∧ ∀ x y : Input,
        (∀ path, ListingLine.linesOf x.lines path = ListingLine.linesOf y.lines path) →
        (({ store := s } : Conversion).listing types.erases x).2.store.size < UInt32.size - 1 →
        (({ store := t } : Conversion).listing types.erases y).2.store.size < UInt32.size - 1 →
        ∃ text, (({ store := s } : Conversion).listing types.erases x).2.Writes text
          ∧ (({ store := t } : Conversion).listing types.erases y).2.Writes text := by
  constructor
  · intro ls ms hsame hls hms
    obtain ⟨hok, hc⟩ := holds_lines hs types.erases ls (by omega)
    obtain ⟨hok', hd⟩ := holds_lines ht types.erases ms (by omega)
    exact ⟨hok, hok', hc.writes_same hd hsame⟩
  · intro x y hsame hx hy
    have hstart : ({ store := s } : Conversion).Holds [] := ⟨hs, .nil⟩
    have hstart' : ({ store := t } : Conversion).Holds [] := ⟨ht, .nil⟩
    obtain ⟨-, hc⟩ := hstart.listing types.erases x (by omega)
    obtain ⟨-, hd⟩ := hstart'.listing types.erases y (by omega)
    exact hc.writes_same hd hsame

/-- The lines of two files in both orders, with other lines between them,
converted with an empty store and with one that holds other conditions. -/
theorem writes_of_linesOf_eq_swapped :
    ∃ text, (({ store := .empty } : Conversion).lines TypeTable.empty.erases
          [("a.c: A || !B", 1), ("b.c: B && (", 2), ("a.c: (B)", 3)]).2.Writes text
      ∧ (({ store := (Store.empty.read "B && A" 1).2 } : Conversion).lines
          TypeTable.empty.erases
          [("b.c: B && (", 7), ("", 8), ("a.c: A || !B", 7), ("no file", 1),
            ("a.c: (B)", 0)]).2.Writes text := by
  have ht : (Store.empty.read "B && A" 1).2.WellFormed :=
    Store.wellFormed_empty.read "B && A" 1 (by decide +kernel)
  obtain ⟨hruns, -⟩ := writes_of_linesOf_eq Store.wellFormed_empty ht TypeTable.empty
  have hrun := hruns
    [("a.c: A || !B", 1), ("b.c: B && (", 2), ("a.c: (B)", 3)]
    [("b.c: B && (", 7), ("", 8), ("a.c: A || !B", 7), ("no file", 1), ("a.c: (B)", 0)]
    (ListingLine.forall_linesOf_eq (by decide +kernel))
  exact (hrun (by decide +kernel) (by decide +kernel)).2.2

end Conversion

end PresenceTable
