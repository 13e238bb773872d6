/-
  PresenceTable.Proofs.Table
  ──────────────────────────
  **THE TABLE OF A LISTING, AS A FUNCTION OF ITS LINES.**

  `tableOf` says what is written for the lines of a listing without any
  store: the files that some line gives, in the order of their bytes, and
  for each of them the tree that its last line leaves.  A conversion from
  the start, of a listing that is short enough for the ids never to run
  out, comes to this text.

  Main results:
    * `mem_sortedFilesOf_iff` / `pairwise_lt_sortedFilesOf` — the files of
      the table, and their order;
    * `Conversion.Holds.writes_tableOf` — a conversion of lines writes their
      table;
    * `Conversion.start_listing` — so does one of a short enough listing.
-/
import Std.Data.ExtTreeSet
import PresenceTable.Proofs.Growth
import PresenceTable.Proofs.Independence

namespace PresenceTable

/-! ## §1. The files of the table. -/

namespace ListingLine

/-- The files that some line gives, each of them once, by their bytes. -/
def sortedFilesOf (lines : List Bytes) : List Bytes :=
  (Std.ExtTreeSet.ofList (filesOf lines) compare).toList

theorem pairwise_lt_sortedFilesOf (lines : List Bytes) :
    (sortedFilesOf lines).Pairwise (· < ·) := by
  have hordered : (sortedFilesOf lines).Pairwise fun a b => compare a b = .lt :=
    Std.ExtTreeSet.ordered_toList
  exact hordered.imp Bytes.compare_eq_lt_iff.1

theorem mem_sortedFilesOf_iff {lines : List Bytes} {path : Bytes} :
    path ∈ sortedFilesOf lines ↔ ∃ line ∈ lines, ∃ condition, Gives line path condition := by
  unfold sortedFilesOf
  rw [Std.ExtTreeSet.mem_toList, Std.ExtTreeSet.mem_ofList, List.contains_iff_mem]
  exact mem_filesOf_iff

end ListingLine

/-! ## §2. The table. -/

/-- The table of these lines. -/
def tableOf (types : TypeTable) (lines : List Bytes) : Bytes :=
  (ListingLine.sortedFilesOf lines).flatMap fun path =>
    path ++ ";" ++ (fileTree types.erases lines path).print ++ "\n"

namespace Conversion

/-- A conversion comes to the files that its lines give. -/
theorem Holds.paths_eq_sortedFilesOf {erased : Name → Bool} {c : Conversion}
    {lines : List Bytes} (hc : c.Holds (lines.flatMap (lineTrees erased))) :
    c.paths = ListingLine.sortedFilesOf lines := by
  -- both are sorted, so it is enough that they have the same members
  apply c.model.pairwise_lt_paths.eq_of_mem_iff (ListingLine.pairwise_lt_sortedFilesOf lines)
  intro path
  rw [ListingLine.mem_sortedFilesOf_iff]
  exact hc.mem_paths_iff path

theorem Holds.writes_tableOf {types : TypeTable} {c : Conversion} {lines : List Bytes}
    (hc : c.Holds (lines.flatMap (lineTrees types.erases))) : c.Writes (tableOf types lines) := by
  have hwrites := hc.writes
  rw [hc.paths_eq_sortedFilesOf] at hwrites
  exact hwrites

/-- **A listing that is short enough** is converted to its end, if it can be
read to its end, and what it comes to is the table of its lines. -/
theorem start_listing (types : TypeTable) {input : Input}
    (hbytes : input.text.length < UInt32.size - 2) :
    (start.listing types.erases input).1
        = (if input.interrupted then .error (.interrupted input.lineCount) else .ok ())
      ∧ (start.listing types.erases input).2.Writes (tableOf types input.lines) := by
  -- one id is taken by the constant, and each byte takes one more at most
  have hsize := size_listing_le (c := start) Store.wellFormed_empty types.erases input
    (show 1 + input.text.length ≤ UInt32.size by omega)
  have hstart : start.store.size = 1 := rfl
  obtain ⟨hanswer, hc⟩ := holds_start.listing types.erases input (by omega)
  exact ⟨hanswer, hc.writes_tableOf⟩

end Conversion

end PresenceTable
