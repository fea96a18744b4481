import ReportMigration.Settings.Basic
import ReportMigration.Settings.Environment
import ReportMigration.Toml.Document

/-!
# Reading settings

Settings are read from a TOML document with placeholders. What the document does not mention keeps
its default, and keys that no setting has are passed over.
-/

namespace ReportMigration.Settings

open Toml

/-- Why settings cannot be read. -/
inductive ReadFault where
  | notToml
  | wrongKind
  | selector (fault : Failure)
deriving DecidableEq, Repr

namespace ReadFault

def message : ReadFault → String
  | notToml => "the text is not a TOML document"
  | wrongKind => "a value is not of the kind that its key takes"
  | selector fault => fault.message

/-- The failure that ends a run with such settings. -/
def toFailure (fault : ReadFault) : Failure :=
  .configurationField "toml_parsing" s!"TOML parsing error: {fault.message}"

end ReadFault

/-- A group of settings: a table, or their values in a row. -/
inductive Section where
  | named (entries : Entries)
  | inOrder (values : List Value)

def Section.ofValue : Value → Except ReadFault Section
  | .table _ entries => .ok (.named entries)
  | .array _ values => .ok (.inOrder values)
  | _ => .error .wrongKind

/-- The value of a setting by its key and its place in the row. -/
def Section.get? (s : Section) (place : Nat) (key : String) : Option Value :=
  match s with
  | .named entries => entries.get? key.toList
  | .inOrder values => values[place]?

def text : Value → Except ReadFault String
  | .string cs => .ok (String.ofList cs)
  | _ => .error .wrongKind

def path (value : Value) : Except ReadFault OsText :=
  OsText.ofText <$> text value

def flag : Value → Except ReadFault Bool
  | .boolean value => .ok value
  | _ => .error .wrongKind

def textList : Value → Except ReadFault (List String)
  | .array _ values => values.mapM text
  | _ => .error .wrongKind

def selector (value : Value) : Except ReadFault Markup.Selector := do
  (Markup.Selector.ofSetting (← text value)).mapError .selector

def selectorList : Value → Except ReadFault (List Markup.Selector)
  | .array _ values => values.mapM selector
  | _ => .error .wrongKind

def Section.withDefault {α : Type} (s : Section) (place : Nat) (key : String)
    (read : Value → Except ReadFault α) (fallback : α) : Except ReadFault α :=
  match s.get? place key with
  | none => .ok fallback
  | some value => read value

/-- Reads a setting that may be absent. In a row it has to be there. -/
def Section.optional {α : Type} (s : Section) (place : Nat) (key : String)
    (read : Value → Except ReadFault α) : Except ReadFault (Option α) :=
  match s.get? place key, s with
  | some value, _ => some <$> read value
  | none, .named _ => .ok none
  | none, .inOrder _ => .error .wrongKind

def readSource (s : Section) : Except ReadFault SourceSettings := do
  let fallback : SourceSettings := {}
  let extensions ← s.withDefault 2 "extensions" textList fallback.extensions
  let name ← s.optional 0 "name" text
  let root ← s.withDefault 1 "root" path fallback.root
  let fields ← s.withDefault 3 "sql_fields" selectorList fallback.fields
  return { name, root, extensions, fields }

def readOutput (s : Section) : Except ReadFault OutputSettings := do
  let fallback : OutputSettings := {}
  let backup ← s.withDefault 0 "backup" flag fallback.backup
  let backupSuffix ← s.withDefault 1 "backup_suffix" text fallback.backupSuffix
  let formatSql ← s.withDefault 2 "format_sql" flag fallback.formatSql
  let preferCdata ← s.withDefault 3 "prefer_cdata" flag fallback.preferCdata
  let dryRun ← s.withDefault 4 "dry_run" flag fallback.dryRun
  let reportPath ← s.optional 5 "report_path" path
  return { backup, backupSuffix, formatSql, preferCdata, dryRun, reportPath }

def readMonitoring (s : Section) : Except ReadFault MonitoringSettings := do
  let enabled ← s.withDefault 0 "enabled" flag false
  let logFormat ← s.optional 1 "log_format" text
  return { enabled, logFormat }

/-- Reads settings from the table of a document. -/
def ofEntries (entries : Entries) : Except ReadFault Settings := do
  let root := Section.named entries
  let part {α : Type} (read : Section → Except ReadFault α) (value : Value) :=
    Section.ofValue value >>= read
  let source ← root.withDefault 0 "migration" (part readSource) {}
  let monitoring ← root.optional 2 "monitoring" (part readMonitoring)
  let output ← root.withDefault 1 "output" (part readOutput) {}
  return { source, output, monitoring }

/-- Reads settings from the text of a document, after its placeholders are replaced. -/
def parse (env : Environment) (document : String) : Except ReadFault Settings :=
  match Toml.parse (env.expand document.toList) with
  | none => .error .notToml
  | some entries => ofEntries entries

end ReportMigration.Settings
