import ReportMigration.Settings.CommandLine
import ReportMigration.Settings.Reading
import ReportMigration.Text.Quote

/-!
# Arguments of the two programs

The switches of the migration of a directory and of the conversion of a single statement. What is
given on the command line of a migration takes precedence over its settings.
-/

namespace ReportMigration

open CommandLine

def helpSwitch : Switch := ⟨"help", some 'h', .help⟩
def formatSwitch : Switch := ⟨"format", none, .flag⟩
def verboseSwitch : Switch := ⟨"verbose", some 'v', .flag⟩

/-- The arguments of a migration. -/
structure MigrationArguments where
  root : Option String := none
  config : Option String := none
  dryRun : Bool := false
  format : Bool := false
  noBackup : Bool := false
  extensions : List String := []
  report : Option String := none
  verbose : Bool := false
  monitor : Bool := false
deriving DecidableEq, Repr

namespace MigrationArguments

def grammar : Grammar :=
  ⟨[⟨"root", none, .path⟩, ⟨"config", some 'c', .path⟩, ⟨"dry-run", none, .flag⟩, formatSwitch,
    ⟨"no-backup", none, .flag⟩, ⟨"extensions", none, .texts⟩, ⟨"report", none, .path⟩,
    verboseSwitch, ⟨"monitor", none, .flag⟩, helpSwitch], none⟩

def parse (arguments : List String) : Except UsageFault MigrationArguments := do
  let given ← CommandLine.parse grammar arguments
  return {
    root := (given.values "root").head?
    config := (given.values "config").head?
    dryRun := given.has "dry-run"
    format := given.has "format"
    noBackup := given.has "no-backup"
    extensions := given.values "extensions"
    report := (given.values "report").head?
    verbose := given.has "verbose"
    monitor := given.has "monitor" }

def display (a : MigrationArguments) : String :=
  let path (value : Option String) : String :=
    match value with
    | none => "None"
    | some path => "Some(" ++ Text.quotePath path ++ ")"
  let extensions := ", ".intercalate (a.extensions.map Text.quoteText)
  "CliConfig \x7b root: " ++ path a.root ++ ", config: " ++ path a.config ++ ", dry_run: " ++
    toString a.dryRun ++ ", format: " ++ toString a.format ++ ", no_backup: " ++
    toString a.noBackup ++ ", extensions: [" ++ extensions ++ "], report: " ++ path a.report ++
    ", verbose: " ++ toString a.verbose ++ ", monitor: " ++ toString a.monitor ++ " \x7d"

/-- Puts the arguments over the settings. A switch that is not given changes nothing. -/
def override (a : MigrationArguments) (s : Settings) : Settings :=
  { source :=
      { s.source with
        root := (a.root.map OsText.ofText).getD s.source.root
        extensions := if a.extensions.isEmpty then s.source.extensions else a.extensions }
    output :=
      { s.output with
        dryRun := a.dryRun || s.output.dryRun
        formatSql := a.format || s.output.formatSql
        backup := !a.noBackup && s.output.backup
        reportPath := (a.report.map OsText.ofText).or s.output.reportPath }
    monitoring :=
      if a.monitor then some { s.monitoring.getD {} with enabled := true } else s.monitoring }

end MigrationArguments

/-- The arguments of the conversion of a single statement. -/
structure StatementArguments where
  input : Option String := none
  format : Bool := false
  verbose : Bool := false
deriving DecidableEq, Repr

namespace StatementArguments

def grammar : Grammar :=
  ⟨[formatSwitch, verboseSwitch, helpSwitch], some ⟨"input", none, .path⟩⟩

/-- Reads the arguments of the conversion of a statement. -/
def parse (arguments : List String) : Except UsageFault StatementArguments := do
  let given ← CommandLine.parse grammar arguments
  return {
    input := (given.values "input").head?
    format := given.has "format"
    verbose := given.has "verbose" }

end StatementArguments

end ReportMigration
