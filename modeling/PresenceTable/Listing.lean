/-
  PresenceTable.Listing
  ─────────────────────
  **THE LINES OF A LISTING.**

  A listing gives one file a line, as `path: condition`.  The path ends in
  front of the first ':', and the condition begins two bytes after it,
  whatever the byte between is.  Lines of blanks say nothing.

  Main results:
    * `ofText_eq_entry_iff` — which lines give a file.
-/
import PresenceTable.Bytes

namespace PresenceTable

/-- What a line of a listing says. -/
inductive ListingLine where
  /-- Nothing. -/
  | blank
  /-- Something else than a path and a condition. -/
  | malformed
  /-- The condition of a file. -/
  | entry (path condition : Bytes)
  deriving DecidableEq, Repr

namespace ListingLine

/-- The byte between a path and its condition. -/
def isColon (b : UInt8) : Bool := b == ':'.toUInt8

/-- What a text says as a line of a listing. -/
def ofText (text : Bytes) : ListingLine :=
  if Bytes.trim text = [] then .blank
  else
    match text.dropWhile (! isColon ·) with
    | [] => .malformed
    | _ :: separated => .entry (text.takeWhile (! isColon ·)) (separated.drop 1)

theorem ofText_eq_entry_iff (text path condition : Bytes) :
    ofText text = .entry path condition ↔
      Bytes.trim text ≠ [] ∧
        ∃ colon separated, text.dropWhile (! isColon ·) = colon :: separated
          ∧ text.takeWhile (! isColon ·) = path ∧ separated.drop 1 = condition := by
  unfold ofText
  split
  · next h => simp [h]
  · next h =>
    split
    · next h' => simp [h']
    · next colon separated h' =>
      constructor
      · intro he
        cases he
        exact ⟨h, colon, separated, h', rfl, rfl⟩
      · rintro ⟨_, _, _, he, rfl, rfl⟩
        cases h'.symm.trans he
        rfl

end ListingLine

/-- What stands in a listing for a condition that could not be expressed. -/
def invalidMarker : Bytes := "InvalidExpression()"

end PresenceTable
