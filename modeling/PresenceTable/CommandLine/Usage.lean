/-
  PresenceTable.CommandLine.Usage
  ───────────────────────────────
  **THE USAGE TEXT.**

  The text shows the name under which the program was started.  A program
  that was started without any name has nothing to go on with where the
  name should stand, so the text ends there.
-/
import PresenceTable.Bytes

namespace PresenceTable

/-- How the program of this name is used. -/
def usageOf (program : Bytes) : Bytes :=
  "Usage: " ++ program ++ " [OPTIONS] <kbuildminer-output>\n"
    ++ "       " ++ program ++ " --selftest\n"
    ++ "\n"
    ++ "Converts KbuildMiner output into per-file presence conditions.\n"
    ++ "\n"
    ++ "Options:\n"
    ++ "  --types <file>, -t   Variable types, one '<NAME> <TYPE>' per line\n"
    ++ "  --output <file>, -o  Write the build model to <file> (default: stdout)\n"
    ++ "  --stats              Print conversion statistics to stderr\n"
    ++ "  --quiet, -q          Do not print warnings\n"
    ++ "  --selftest           Run built-in tests\n"
    ++ "  --help, -h           Show this message\n"
    ++ "\n"
    ++ "Output format:\n"
    ++ "  <file>;<presence condition>   one line per file, sorted by file\n"

/-- How the program is used that was started under this name. -/
def usage : Option Bytes → Bytes
  | some program => usageOf program
  | none => "Usage: "

end PresenceTable
