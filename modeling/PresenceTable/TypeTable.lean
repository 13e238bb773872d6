/-
  PresenceTable.TypeTable
  ───────────────────────
  **TYPES OF VARIABLES.**

  A table of types declares one variable a line, by a name and a type.
  Comments begin with '#', and lines without content are skipped.  A later
  declaration of the same name replaces an earlier one.

  A variable of any type but `tristate` can not be a module, so its module
  variable is erased.  An undeclared variable might be a module.

  Main results:
    * `typeOf?_declare` — what one more declaration changes;
    * `erases_iff` — which names a table erases.
-/
import Std.Data.ExtTreeMap
import PresenceTable.Formula.Elimination
import PresenceTable.Input

namespace PresenceTable

/-- The declared types, by the names of the variables. -/
structure TypeTable where
  types : Std.ExtTreeMap Bytes Bytes := ∅

namespace TypeTable

/-- The type of a variable that can be a module. -/
def tristate : Bytes := "tristate"

/-- Nothing is declared. -/
def empty : TypeTable := {}

/-- Declare a type, in place of an earlier one. -/
def declare (t : TypeTable) (name type : Bytes) : TypeTable := ⟨t.types.insert name type⟩

/-- The declared type of a variable. -/
def typeOf? (t : TypeTable) (name : Bytes) : Option Bytes := t.types[name]?

/-- Whether a variable is declared. -/
def declares (t : TypeTable) (name : Bytes) : Bool := t.types.contains name

/-- Whether a variable is declared to be of three states. -/
def isTristate (t : TypeTable) (name : Bytes) : Bool := t.typeOf? name == some tristate

/-- The number of declared variables. -/
def size (t : TypeTable) : Nat := t.types.size

/-- Whether nothing is declared. -/
def isEmpty (t : TypeTable) : Bool := t.types.isEmpty

/-- Whether a name is the module variable of a variable that is declared
with another type than `tristate`. -/
def erases (t : TypeTable) (name : Name) : Bool :=
  match name.moduleBase? with
  | none => false
  | some base =>
    match t.typeOf? base.val with
    | none => false
    | some type => type != tristate

theorem typeOf?_declare (t : TypeTable) (name type other : Bytes) :
    (t.declare name type).typeOf? other
      = if name = other then some type else t.typeOf? other := by
  simp [declare, typeOf?, Std.ExtTreeMap.getElem?_insert, Std.LawfulEqCmp.compare_eq_iff_eq]

theorem erases_iff (t : TypeTable) (name : Name) :
    t.erases name = true ↔
      ∃ base type, name.moduleBase? = some base ∧ t.typeOf? base.val = some type
        ∧ type ≠ tristate := by
  unfold erases
  cases hbase : name.moduleBase? with
  | none => simp
  | some base =>
    cases htype : t.typeOf? base.val with
    | none => simp [htype]
    | some type => simp [htype]

/-! ## §1. Reading a table. -/

/-- Why a table can not be read. -/
inductive ReadError where
  /-- A line has other content than a name and a type. -/
  | malformed (line : UInt32) (content : Bytes)
  /-- The reading broke off. -/
  | interrupted
  deriving DecidableEq, Repr

/-- The wording of an error in the table from the given source. -/
def ReadError.message (source : Bytes) : ReadError → Bytes
  | .malformed line content =>
      source ++ ":" ++ Bytes.decimal line.toNat ++ ": malformed variable declaration '"
        ++ content ++ "' (expected '<name> <type>')"
  | .interrupted => "error while reading " ++ source

/-- The table with the declaration on one more line, if there is one. -/
def readLine (t : TypeTable) (text : Bytes) (line : UInt32) : Except ReadError TypeTable :=
  let content := Bytes.stripComment text
  if content = [] then .ok t
  else
    match Bytes.fields content with
    | [name, type] => .ok (t.declare name type)
    | _ => .error (.malformed line content)

/-- The table that a text declares.  A malformed line is reported even when
the reading breaks off later. -/
def read (input : Input) : Except ReadError TypeTable := do
  let table ← input.numberedLines.foldlM (fun t (text, line) => t.readLine text line) empty
  if input.interrupted then .error .interrupted else .ok table

end TypeTable

end PresenceTable
