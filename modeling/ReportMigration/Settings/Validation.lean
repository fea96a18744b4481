import ReportMigration.Settings.Basic

/-!
# Valid settings

The checks that settings pass before a migration starts. The first setting that fails is reported.
-/

namespace ReportMigration.Settings

open Text

/-- A path is not empty and holds no NUL character. -/
def validatePath (field path : String) : Except Failure Unit :=
  if path.isEmpty then .error (.invalidSetting field path "Path cannot be empty")
  else if path.toList.contains '\x00' then
    .error (.invalidSetting field path "Path contains null bytes")
  else .ok ()

/-- An extension is one or more ASCII letters and digits. -/
def isExtension (extension : String) : Bool :=
  !extension.isEmpty && extension.toList.all isAsciiAlphanumeric

def validateExtensions (field : String) (extensions : List String) : Except Failure Unit :=
  if extensions.isEmpty then
    .error (.invalidSetting field "" "At least one file extension is required")
  else
    match extensions.find? (!isExtension ·) with
    | some extension =>
      .error (.invalidSetting field extension
        "Extensions must be alphanumeric without a leading dot")
    | none => .ok ()

/-- A value is more than white space. -/
def validateNonEmpty (field value : String) : Except Failure Unit :=
  if (trim value.toList).isEmpty then
    .error (.invalidSetting field value "Value cannot be empty or whitespace-only")
  else .ok ()

/-- A backup suffix is a dot and a name without path separators. -/
def validateBackupSuffix (field suffix : String) : Except Failure Unit := do
  validateNonEmpty field suffix
  if suffix.toList.head? ≠ some '.' || suffix.toList.length < 2 then
    .error (.invalidSetting field suffix "Backup suffix must start with '.' followed by a name")
  if suffix.toList.contains '/' || suffix.toList.contains '\\' then
    .error (.invalidSetting field suffix "Backup suffix cannot contain path separators")

def validateLogFormat (field : String) : Option String → Except Failure Unit
  | none => .ok ()
  | some format =>
    if format = "compact" ∨ format = "json" then .ok ()
    else .error (.invalidSetting field format "Supported formats: compact, json")

/-- Checks all settings. The suffix of backups counts only when backups are kept. -/
def validate (s : Settings) : Except Failure Unit := do
  validatePath "migration.root" s.source.root.display
  validateExtensions "migration.extensions" s.source.extensions
  if s.source.fields.isEmpty then .error (.missingSetting "migration.sql_fields")
  if s.output.backup then validateBackupSuffix "output.backup_suffix" s.output.backupSuffix
  match s.output.reportPath with
  | none => .ok ()
  | some path => validatePath "output.report_path" path.display
  validateLogFormat "monitoring.log_format" s.logFormat

end ReportMigration.Settings
