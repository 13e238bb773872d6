/-
  PresenceTable.SelfTest.Suite
  ────────────────────────────
  **THE BUILT-IN SELF-TEST.**

  A few trials of each part of the program, on inputs small enough to be
  checked by eye.  They are a sample that was chosen for this library, and
  not all that a program of this kind would be tried on; what is proved of
  trials holds of any others as well.
-/
import PresenceTable.Conversion
import PresenceTable.SelfTest.Tally
import PresenceTable.TypeTable

namespace PresenceTable

namespace SelfTest

/-! ## §1. What the trials look at. -/

/-- The written form of a stored condition, or what is wrong with it. -/
def printed (s : Store) (id : NodeId) : Bytes :=
  match s.print id with
  | .ok text => text
  | .error fault => fault.message

/-- The written form of the condition that a text spells, or the message. -/
def reading (text : Bytes) : Bytes :=
  match Store.empty.read text 1 with
  | (.ok id, s) => printed s id
  | (.error error, _) => error.message

/-- Some declared types. -/
def sampleTypes : TypeTable :=
  ((TypeTable.empty.declare "FOO" "bool").declare "BAR" "tristate").declare "NAME" "string"

/-- The written form of the condition that a text spells, after elimination
with the sample types. -/
def elimination (text : Bytes) : Bytes :=
  match Store.empty.read text 1 with
  | (.ok id, s) =>
    match s.eliminate sampleTypes.erases id with
    | (.ok id, s) => printed s id
    | (.error fault, _) => fault.message
  | (.error error, _) => error.message

/-- The table that is written for a listing. -/
def table (text : Bytes) : Bytes :=
  match Conversion.start.listing sampleTypes.erases { text } with
  | (.ok (), c) =>
    match c.model.write c.store with
    | .ok table => table
    | .error fault => fault.message
  | (.error error, _) => error.message

/-- A step that compares two texts. -/
def expect (actual expected description : Bytes) : TrialStep :=
  .check (.equal actual expected description)

/-! ## §2. The trials. -/

/-- The trials in the order in which they are run. -/
def trials : List Trial :=
  [{ name := "reading"
     steps :=
      [expect (reading "A || B && !C") "(A || (B && !C))" "negation, conjunction, disjunction",
        expect (reading "A && B && C") "((A && B) && C)" "conjunctions associate to the left",
        expect (reading "(A || B) && C") "((A || B) && C)" "parentheses",
        expect (reading "A &") "expected '&&' but found single '&'" "lone operator",
        expect (reading "A B") "unexpected token 'B' after formula" "trailing name",
        expect (reading "") "unexpected end of expression" "empty condition"] },
    { name := "elimination"
      steps :=
      [expect (elimination "FOO || FOO_MODULE") "FOO" "erased disjunct",
        expect (elimination "BAR || BAR_MODULE") "(BAR || BAR_MODULE)" "kept disjunct",
        expect (elimination "FOO && !FOO_MODULE") "(FOO && false)" "erased conjunct"] },
    { name := "conversion"
      steps :=
      [expect (table "b.c: FOO\na.c: FOO_MODULE || BAR\n") "a.c;BAR\nb.c;FOO\n" "sorted by path",
        expect (table "a.c: FOO\na.c: InvalidExpression()\n") "a.c;false\n" "last line wins"] }]

/-- The trials, run one after another. -/
def runner : Runner := Runner.start.runAll trials

/-- What was counted over the trials. -/
def tally : Tally := runner.tally

/-- What is reported about the trials. -/
def text : Bytes := runner.printed.flatMap Notice.text ++ tally.text

end SelfTest

end PresenceTable
