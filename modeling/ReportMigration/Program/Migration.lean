import ReportMigration.Migration.Run
import ReportMigration.Program.Terminal
import ReportMigration.Settings.Arguments
import ReportMigration.Settings.Validation

/-!
# The migration of a directory

The program that migrates the reports below a directory. It reads its settings, checks them, runs
the migration, prints what became of each report, and keeps the summary in a file if asked to.
-/

namespace ReportMigration.Program.Migration

open Report Settings

def help : String :=
  "Rewrite DB2 SQL embedded in report definitions to PostgreSQL\n\n" ++
  "Usage: report-sql-migrate [OPTIONS]\n\n" ++
  "Options:\n" ++
  "      --root <ROOT>              Report directory to scan (default: current directory)\n" ++
  "  -c, --config <CONFIG>          TOML configuration file\n" ++
  "      --dry-run                  Show the rewritten SQL without touching any file\n" ++
  "      --format                   Pretty-print rewritten SQL\n" ++
  "      --no-backup                Do not keep a backup copy of changed reports\n" ++
  "      --extensions <EXTENSIONS>  Report file extensions, e.g. jrxml,rptdesign\n" ++
  "      --report <REPORT>          Write a JSON migration report to this path\n" ++
  "  -v, --verbose                  Enable verbose output\n" ++
  "      --monitor                  Log process CPU and memory usage\n" ++
  "  -h, --help                     Print help"

def settingsNotes (s : Settings) : List String :=
  let fields := s.source.fields.map fun field => String.ofList field.display
  [s!"📋 Migration: {s.name}", s!"  📁 Root: {s.source.root}",
    "  📄 Extensions: " ++ ", ".intercalate s.source.extensions,
    "  🔎 SQL fields: " ++ ", ".intercalate fields,
    "  💾 Backup: " ++ (if s.output.backup then s.output.backupSuffix else "off")] ++
  (if s.output.formatSql then ["  ✨ Pretty-printing converted SQL"] else []) ++
  (if s.output.dryRun then ["🔍 DRY RUN MODE - no file will be written"] else []) ++
  (if s.monitoringEnabled then ["🔍 System monitoring enabled"] else [])

def changeLines (c : Change) : List String :=
  [s!"  --- {String.ofList c.field} #{c.index}", s!"  - {String.ofList c.before}",
    s!"  + {String.ofList c.after}"]

/-- The lines about a document. One that is unchanged has none. -/
def entryLines (e : Entry) : List String :=
  match e.status with
  | .unchanged => []
  | .changed => [s!"✅ {e.path} ({e.fragmentsChanged} fragment(s))"]
  | .previewed =>
    s!"💡 {e.path} ({e.fragmentsChanged} fragment(s) would change)" :: e.changes.flatMap changeLines
  | .failed => [s!"❌ {e.path}: " ++ e.error.getD "unknown error"]

def totalsLine (s : Summary) : String :=
  let mark := if s.hasFailures then "⚠️" else "✅"
  let done := if s.dryRun then "to migrate" else "migrated"
  let t := s.totals
  s!"{mark} Scanned {t.scanned} report(s): {t.changed} {done}, {t.unchanged} unchanged, " ++
    s!"{t.failed} failed ({t.fragmentsConverted} SQL fragment(s))"

variable {m : Type → Type} [Monad m] [Terminal m] [Journal m]

/-- Prints what became of a document. One that is unchanged is only noted. -/
def printEntry (e : Entry) : m Unit := do
  if e.status = .unchanged then Journal.note .debug s!"  {e.path} (unchanged)"
  (entryLines e).forM Terminal.print

def printSummary (s : Summary) : m Unit := do
  s.entries.forM printEntry
  Terminal.print ""
  Terminal.print (totalsLine s)

/-- Notes the failure that ended a run and explains it to the user. -/
def reportFailure (failure : Failure) : m Unit := do
  Journal.note .error (s!"❌ Migration failed: {failure.message} " ++
    s!"(Category: {failure.category.name}, Severity: {failure.severity.name})")
  Journal.note .error s!"💡 Recovery suggestion: {failure.suggestion}"
  explain failure

variable [FileSystem m]

/-- Reads the settings that the arguments name, or takes the defaults, and puts the arguments over
them. -/
def loadSettings (given : MigrationArguments) : ExceptT Failure m Settings := do
  match given.config with
  | none => return given.override {}
  | some path =>
    match ← ExceptT.lift (FileSystem.readText path).run with
    | .error fault => throw (.configuration s!"cannot read {path}: {fault.message}")
    | .ok document =>
      let env := Environment.ofList (← ExceptT.lift (Terminal.environment (m := m)))
      match Settings.parse env document with
      | .error fault => throw fault.toFailure
      | .ok settings => return given.override settings

/-- Why a summary is not kept: a path in it is no text, or its file cannot be written. -/
inductive SummaryFault where
  | noText
  | io (fault : IoFault)
deriving DecidableEq, Repr

/-- The fault with its inner makeup, as it ends the program. -/
def SummaryFault.detail : SummaryFault → String
  | noText =>
    "SerializationError(Error(\"path contains invalid UTF-8 characters\", line: 0, column: 0))"
  | io fault => fault.detail

def saveSummary (path : OsText) (s : Summary) : ExceptT SummaryFault m Unit := do
  match s.display with
  | none => throw .noText
  | some text => ExceptT.adapt SummaryFault.io (FileSystem.writeText path text)
  ExceptT.lift do
    Journal.note .info s!"📁 Migration report saved to: {path}"
    Terminal.print s!"📁 Migration report saved to: {path}"

/-- Ends a run that gave a summary. -/
def finish (reportPath : Option OsText) (s : Summary) : m Nat := do
  printSummary s
  let saved ← match reportPath with
    | none => pure (.ok ())
    | some path => (saveSummary path s).run
  match saved with
  | .error fault =>
    Terminal.complain s!"Error: {fault.detail}"
    return 1
  | .ok () => return if s.hasFailures then 2 else 0

variable [Clock m] [Gauge m]

/-- Migrates the reports that valid settings name. -/
def migrate (settings : Settings) : m Nat := do
  (settingsNotes settings).forM (Journal.note .info)
  let startedAt ← Clock.now
  let storage := Storage.below settings.source.root
  let phases := ReportMigration.Migration.phases settings storage startedAt
  match ← (ReportMigration.Migration.run ⟨settings.monitoringEnabled⟩ phases).run with
  | .ok summary => finish settings.output.reportPath summary
  | .error failure =>
    reportFailure failure
    return failure.severity.exitCode

/-- Runs the program with its arguments and its settings. -/
def runWith (given : MigrationArguments) (settings : Settings) : m Nat := do
  Terminal.openLog ⟨given.verbose, settings.logFormat == some "json"⟩
  Journal.note .info "Starting report-sql-migrate"
  if let some path := given.config then Journal.note .info s!"📄 Configuration loaded from {path}"
  if given.verbose then Journal.note .debug s!"CLI config: {given.display}"
  match settings.validate with
  | .ok () => migrate settings
  | .error failure =>
    Journal.note .error s!"❌ Configuration validation failed: {failure.message}"
    Journal.note .error s!"💡 Suggestion: {failure.suggestion}"
    Terminal.complain s!"❌ {failure.userMessage}"
    return 1

/-- Runs the program and gives its exit code. -/
def run (arguments : List String) : m Nat := do
  match MigrationArguments.parse arguments with
  | .error .help =>
    Terminal.print help
    return 0
  | .error fault =>
    Terminal.complain (fault.message "report-sql-migrate")
    return 2
  | .ok given =>
    match ← (loadSettings given).run with
    | .error failure =>
      explain failure
      return 1
    | .ok settings => runWith given settings

end ReportMigration.Program.Migration
