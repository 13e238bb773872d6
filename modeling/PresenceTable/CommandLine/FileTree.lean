/-
  PresenceTable.CommandLine.FileTree
  ──────────────────────────────────
  **FILES, DIRECTORIES AND PATHS.**

  Enough of a file system to say what a run does to it: files and
  directories below a root, and how a path leads to them.  A path begins at
  the root or at the working directory.  It is followed component by
  component, and all but the last have to be directories.

  Main results:
    * `get?_write_self` / `get?_write_of_ne` — writing a file changes that
      file only.
-/
import Std.Data.ExtTreeMap
import PresenceTable.Input

namespace PresenceTable

/-- What can stand at a place of a file tree. -/
inductive TreeEntry where
  | directory
  | file (contents : Bytes)
  deriving DecidableEq, Repr

/-- The names that lead from the root to a place. -/
abbrev Place := List Bytes

/-- The entries below the root, and where the paths begin that do not begin
there. -/
structure FileTree where
  entries : Std.ExtTreeMap Place TreeEntry := ∅
  workingDirectory : Place := []

namespace FileTree

/-- What stands at a place. -/
def get? (t : FileTree) (place : Place) : Option TreeEntry :=
  if place = [] then some .directory else t.entries[place]?

@[simp] theorem get?_root (t : FileTree) : t.get? [] = some .directory := if_pos rfl

/-- Put a file at a place. -/
def write (t : FileTree) (place : Place) (contents : Bytes) : FileTree :=
  { t with entries := t.entries.insert place (.file contents) }

/-- Put directories at a place and on the way to it. -/
def makeDirectory (t : FileTree) (place : Place) : FileTree :=
  (List.range place.length).foldl
    (fun t n => { t with entries := t.entries.insert (place.take (n + 1)) .directory }) t

/-- Nothing but a working directory. -/
def workingIn (place : Place) : FileTree :=
  makeDirectory { workingDirectory := place } place

theorem get?_write_self (t : FileTree) {place : Place} (h : t.get? place ≠ some .directory)
    (contents : Bytes) : (t.write place contents).get? place = some (.file contents) := by
  have hplace : place ≠ [] := by
    rintro rfl
    exact h t.get?_root
  simp [get?, write, hplace]

theorem get?_write_of_ne (t : FileTree) {place other : Place} (h : place ≠ other)
    (contents : Bytes) : (t.write place contents).get? other = t.get? other := by
  simp [get?, write, Std.ExtTreeMap.getElem?_insert, h]

/-! ## §1. Paths. -/

/-- The byte between the components of a path. -/
def isSlash (b : UInt8) : Bool := b == '/'.toUInt8

/-- The component that leads nowhere else. -/
def itself : Bytes := "."

/-- The component that leads to the directory above. -/
def above : Bytes := ".."

/-- The longest name of an entry. -/
def maxNameLength : Nat := 255

/-- The length from which on a path is too long. -/
def pathLimit : Nat := 4096

/-- The components of a path in order.  A slash at its end asks for a
directory, like a last component ".". -/
def components (path : Bytes) : List Bytes :=
  let names := (Bytes.split isSlash path).filter (! ·.isEmpty)
  if path.getLast? = some '/'.toUInt8 then names ++ [itself] else names

/-- The directory at which a path begins. -/
def startOf (t : FileTree) (path : Bytes) : Place :=
  if path.head? = some '/'.toUInt8 then [] else t.workingDirectory

/-- The place to which a path leads that goes down only. -/
def placeOf (t : FileTree) (path : Bytes) : Place :=
  t.startOf path ++ (components path).filter (· ≠ itself)

/-- The tree with a file under a path that goes down only, and with the
directories on the way. -/
def withFile (t : FileTree) (path contents : Bytes) : FileTree :=
  (t.makeDirectory (t.placeOf path).dropLast).write (t.placeOf path) contents

/-- Where a path leads. -/
inductive Target where
  /-- To a directory. -/
  | directory
  /-- To a file. -/
  | file (place : Place) (contents : Bytes)
  /-- To a place in a directory where nothing stands. -/
  | vacant (place : Place)
  /-- Nowhere. -/
  | unreachable
  deriving DecidableEq, Repr

/-- Follow the components of a path from a directory.  Above the root there
is the root again. -/
def follow (t : FileTree) : Place → List Bytes → Target
  | _, [] => .directory
  | here, name :: later =>
    if name = itself then t.follow here later
    else if name = above then t.follow here.dropLast later
    else if name.length > maxNameLength then .unreachable
    else
      match t.get? (here ++ [name]), later with
      | some .directory, later => t.follow (here ++ [name]) later
      | some (.file contents), [] => .file (here ++ [name]) contents
      | some (.file _), _ :: _ => .unreachable
      | none, [] => .vacant (here ++ [name])
      | none, _ :: _ => .unreachable

/-- Where a path leads. -/
def locate (t : FileTree) (path : Bytes) : Target :=
  if path = [] ∨ path.length ≥ pathLimit then .unreachable
  else t.follow (t.startOf path) (components path)

/-! ## §2. Opening files. -/

/-- What can be read under a path.  A directory can be opened, but reading
it breaks off at once. -/
def read? (t : FileTree) (path : Bytes) : Option Input :=
  match t.locate path with
  | .directory => some { text := [], interrupted := true }
  | .file _ contents => some { text := contents }
  | .vacant _ | .unreachable => none

/-- Write a file under a path, if one can be there. -/
def write? (t : FileTree) (path : Bytes) (contents : Bytes) : Option FileTree :=
  match t.locate path with
  | .file place _ | .vacant place => some (t.write place contents)
  | .directory | .unreachable => none

end FileTree

end PresenceTable
