import ReportMigration.Markup.Selector
import ReportMigration.Text.OsText

/-!
# Settings

What a migration is told: where the reports are and which of their fields hold SQL, what becomes of
the outcome, and how the run is watched.
-/

namespace ReportMigration

/-- Where the reports are and what is converted in them. -/
structure SourceSettings where
  name : Option String := none
  root : OsText := "."
  extensions : List String := ["jrxml", "rptdesign", "xml"]
  fields : List Markup.Selector := Markup.Selector.defaults
deriving DecidableEq, Repr

/-- What becomes of the converted reports. -/
structure OutputSettings where
  backup : Bool := true
  backupSuffix : String := ".bak"
  formatSql : Bool := false
  preferCdata : Bool := false
  dryRun : Bool := false
  reportPath : Option OsText := none
deriving DecidableEq, Repr

/-- How a run is watched. -/
structure MonitoringSettings where
  enabled : Bool := false
  logFormat : Option String := none
deriving DecidableEq, Repr

/-- All settings of a migration. -/
structure Settings where
  source : SourceSettings := {}
  output : OutputSettings := {}
  monitoring : Option MonitoringSettings := none
deriving DecidableEq, Repr

namespace Settings

def name (s : Settings) : String :=
  s.source.name.getD "report-sql-migrate"

/-- Whether the use of the machine is logged. -/
def monitoringEnabled (s : Settings) : Bool :=
  s.monitoring.any (·.enabled)

def logFormat (s : Settings) : Option String :=
  s.monitoring.bind (·.logFormat)

end Settings

end ReportMigration
