import ReportMigration.Program.Terminal
import ReportMigration.Settings.Arguments
import ReportMigration.Sql.Fragment
import ReportMigration.Storage.FileSystem
import ReportMigration.Text.Blank

/-!
# The conversion of a statement

The program that converts a single statement from a file or from its input.
-/

namespace ReportMigration.Program.Conversion

def help : String :=
  "Rewrite a single DB2 SQL statement to PostgreSQL\n\n" ++
  "Usage: sql-rewrite [OPTIONS] [INPUT]\n\n" ++
  "Arguments:\n" ++
  "  [INPUT]  SQL file to convert; reads stdin when omitted\n\n" ++
  "Options:\n" ++
  "      --format   Pretty-print the converted SQL\n" ++
  "  -v, --verbose  Enable verbose output\n" ++
  "  -h, --help     Print help"

/-- Converts a statement, around which white space does not count. -/
def convertStatement (format : Bool) (sql : String) : String :=
  String.ofList (Sql.convert format (Text.trim sql.toList))

/-- Says why the statement cannot be read. -/
def complaint (input : Option String) (fault : IoFault) : String :=
  let context := match input with
    | some path => s!"cannot read '{path}'"
    | none => "cannot read SQL from stdin"
  s!"Error: {context}\n\nCaused by:\n    {fault.message}"

variable {m : Type → Type} [Monad m] [FileSystem m] [Terminal m]

def readStatement : Option String → ExceptT IoFault m String
  | some path => FileSystem.readText path
  | none => Terminal.readInput

/-- Runs the program and gives its exit code. -/
def run (arguments : List String) : m Nat := do
  match StatementArguments.parse arguments with
  | .error .help =>
    Terminal.print help
    return 0
  | .error fault =>
    Terminal.complain (fault.message "sql-rewrite")
    return 2
  | .ok given =>
    match ← (readStatement given.input).run with
    | .error fault =>
      Terminal.complain (complaint given.input fault)
      return 1
    | .ok sql =>
      Terminal.print (convertStatement given.format sql)
      return 0

end ReportMigration.Program.Conversion
