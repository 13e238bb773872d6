/-
  PresenceTable.CommandLine.Options
  ─────────────────────────────────
  **OPTIONS.**

  The words of a command line are taken from the left.  A word that names
  a flag sets it; a word that names an option takes the word after it as
  its value, whatever that looks like; any other word is the input, unless
  it begins with '-'.  Flags and options may come in any order and again,
  and the last value counts.
-/
import PresenceTable.Bytes

namespace PresenceTable

/-- What a command line asks for.  An empty path means that none is given. -/
structure Options where
  input : Bytes := []
  types : Bytes := []
  output : Bytes := []
  selftest : Bool := false
  showStats : Bool := false
  quiet : Bool := false
  help : Bool := false
  deriving DecidableEq, Repr

/-! ## §1. Words. -/

/-- The flags. -/
inductive Flag where
  | selftest
  | stats
  | quiet
  | help
  deriving DecidableEq, Repr

/-- The options that take a file. -/
inductive FileOption where
  | types
  | output
  deriving DecidableEq, Repr

/-- What a word means where no value is expected. -/
inductive Word where
  | flag (flag : Flag)
  | option (option : FileOption)
  /-- It begins like a flag or an option but names none. -/
  | unknown
  | positional
  deriving DecidableEq, Repr

/-- The names of flags and options, long and short. -/
def Word.named : List (Bytes × Word) :=
  [("--selftest", .flag .selftest), ("--stats", .flag .stats),
    ("--quiet", .flag .quiet), ("-q", .flag .quiet), ("--help", .flag .help),
    ("-h", .flag .help), ("--types", .option .types), ("-t", .option .types),
    ("--output", .option .output), ("-o", .option .output)]

/-- The meaning of a word. -/
def Word.ofText (text : Bytes) : Word :=
  match Word.named.lookup text with
  | some word => word
  | none => if text.head? = some '-'.toUInt8 then .unknown else .positional

/-! ## §2. Reading a command line. -/

/-- Why a command line is refused. -/
inductive OptionsError where
  /-- An option is the last word. -/
  | missingFile (option : Bytes)
  /-- A word begins with '-' but names no option. -/
  | unknownOption (word : Bytes)
  /-- There is a second input. -/
  | secondInput
  /-- There is no input. -/
  | noInput
  deriving DecidableEq, Repr

/-- The wording of a refusal. -/
def OptionsError.message : OptionsError → Bytes
  | .missingFile option => option ++ " requires a file argument"
  | .unknownOption word => "unknown option: " ++ word
  | .secondInput => "multiple input files not supported"
  | .noInput => "no input file specified (use --help for usage)"

namespace Options

/-- Set a flag. -/
def setFlag (o : Options) : Flag → Options
  | .selftest => { o with selftest := true }
  | .stats => { o with showStats := true }
  | .quiet => { o with quiet := true }
  | .help => { o with help := true }

/-- Give an option its value. -/
def setFile (o : Options) (path : Bytes) : FileOption → Options
  | .types => { o with types := path }
  | .output => { o with output := path }

/-- The options after more words. -/
def readWords (o : Options) : List Bytes → Except OptionsError Options
  | [] => .ok o
  | text :: later =>
    match Word.ofText text with
    | .flag flag => readWords (o.setFlag flag) later
    | .option option =>
      match later with
      | [] => .error (.missingFile text)
      | path :: later => readWords (o.setFile path option) later
    | .unknown => .error (.unknownOption text)
    | .positional =>
      if o.input ≠ [] then .error .secondInput else readWords { o with input := text } later

/-- Whether there is something to do: an input, or a request that needs
none. -/
def isComplete (o : Options) : Bool := o.selftest || o.help || o.input ≠ []

/-- What the words of a command line, without the program's name, ask for. -/
def ofWords (words : List Bytes) : Except OptionsError Options := do
  let o ← readWords {} words
  if o.isComplete then .ok o else .error .noInput

end Options

end PresenceTable
