/-
  PresenceTable.Model
  ───────────────────
  **THE TABLE OF PRESENCE CONDITIONS.**

  The table gives each file the last condition that was recorded for it.
  It is written one file a line, in the order of the bytes of the paths.

  Main results:
    * `get?_add` — what one more record changes;
    * `pairwise_lt_entries` — the entries are in strictly increasing order.
-/
import Std.Data.ExtTreeMap
import PresenceTable.Store.Unfold

namespace PresenceTable

/-- A file and the condition under which it is part of the build. -/
abbrev Record := Bytes × NodeId

/-- The conditions of files, by their paths. -/
structure Model where
  conditions : Std.ExtTreeMap Bytes NodeId := ∅

namespace Model

/-- Nothing is recorded. -/
def empty : Model := {}

/-- Record the condition of a file, in place of an earlier one. -/
def add (m : Model) (r : Record) : Model := ⟨m.conditions.insert r.1 r.2⟩

/-- Record all of these, one after the other. -/
def addAll (m : Model) (rs : List Record) : Model := rs.foldl add m

/-- The condition of a file. -/
def get? (m : Model) (path : Bytes) : Option NodeId := m.conditions[path]?

/-- Whether a file is recorded. -/
def contains (m : Model) (path : Bytes) : Bool := m.conditions.contains path

/-- The number of files. -/
def size (m : Model) : Nat := m.conditions.size

/-- Whether no file is recorded. -/
def isEmpty (m : Model) : Bool := m.conditions.isEmpty

/-- The files with their conditions, by the bytes of the paths. -/
def entries (m : Model) : List Record := m.conditions.toList

theorem get?_add (m : Model) (r : Record) (path : Bytes) :
    (m.add r).get? path = if r.1 = path then some r.2 else m.get? path := by
  simp [add, get?, Std.ExtTreeMap.getElem?_insert, Std.LawfulEqCmp.compare_eq_iff_eq]

theorem pairwise_lt_entries (m : Model) :
    m.entries.Pairwise fun a b => compare a.1 b.1 = .lt :=
  Std.ExtTreeMap.ordered_keys_toList

/-- One line of the written table. -/
def line (store : Store) (r : Record) : Except Fault Bytes := do
  let condition ← store.print r.2
  return r.1 ++ ";" ++ condition ++ "\n"

/-- The written table. -/
def write (m : Model) (store : Store) : Except Fault Bytes := do
  let lines ← m.entries.mapM (line store)
  return lines.flatten

end Model

end PresenceTable
