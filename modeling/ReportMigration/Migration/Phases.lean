import ReportMigration.Migration.Discovery
import ReportMigration.Migration.Document
import ReportMigration.Report.Summary

/-!
# The phases of a migration

Reports are gathered, converted and saved. A report that cannot be read, converted or saved does
not keep the others from it.
-/

namespace ReportMigration.Migration

open Report

/-- The phases of a migration. -/
structure Phases (m : Type → Type) where
  gather : ExceptT Failure m (List Source)
  convert : List Source → ExceptT Failure m (List Converted)
  save : List Converted → ExceptT Failure m Summary

variable {m : Type → Type} [Monad m] [Journal m]

/-- Makes a note in a phase that may fail. -/
def note (level : Level) (message : String) : ExceptT Failure m Unit :=
  ExceptT.lift (Journal.note level message)

def readSource (storage : Storage m) (path : OsText) : m Source := do
  match ← (storage.readReport path).run with
  | .ok text => return ⟨path, .ok text⟩
  | .error failure =>
    Journal.note .warn s!"⚠️ Cannot read {path}: {failure.message}"
    return ⟨path, .error failure.message⟩

/-- Reads all reports below the root. -/
def gather [FileSystem m] (settings : Settings) (storage : Storage m) :
    ExceptT Failure m (List Source) := do
  let root := settings.source.root
  if !(← ExceptT.lift (FileSystem.isDirectory root)) then
    throw (.io (.rootNotADirectory root.display))
  let paths ← ExceptT.lift (discover settings)
  note .debug s!"🔍 Found {paths.length} report files under {root}"
  ExceptT.lift (paths.mapM (readSource storage))

def noteOutcome (path : OsText) : Outcome → m Unit
  | .changed fragments =>
    Journal.note .debug s!"✏️ {path}: {fragments.length} SQL fragment(s) rewritten"
  | .unchanged => Journal.note .debug s!"{path}: nothing to rewrite"
  | .failed reason => Journal.note .warn s!"❌ {path}: {reason}"

/-- Converts a document, with a warning for each field that is left alone. -/
def convertDocument (settings : Settings) (source : Source) : m Converted := do
  let (converted, skipped) := convertSource settings source
  skipped.forM fun field => Journal.note .warn (field.message source.path)
  noteOutcome converted.path converted.outcome
  return converted

def convertAll (settings : Settings) (sources : List Source) :
    ExceptT Failure m (List Converted) :=
  ExceptT.lift (sources.mapM (convertDocument settings))

/-- What became of an attempt to save a report: the backup that was made, if one was, and the
failure, if there was one. -/
structure Saving where
  backup : Option OsText
  failure : Option Failure

def write (storage : Storage m) (path : OsText) (text : String) (backup : Option OsText) :
    m Saving := do
  match ← (storage.writeReport path text).run with
  | .ok () => return ⟨backup, none⟩
  | .error failure => return ⟨backup, some failure⟩

/-- Keeps a report aside, if backups are kept, and writes it then. Without its backup it is not
written. -/
def save (settings : Settings) (storage : Storage m) (path : OsText) (text : String) :
    m Saving := do
  if settings.output.backup then
    match ← (storage.backupReport path settings.output.backupSuffix).run with
    | .ok backup => write storage path text (some backup)
    | .error failure => return ⟨none, some failure⟩
  else write storage path text none

def savedEntry (path : OsText) (fragments : List Change) (saving : Saving) : Entry :=
  match saving.failure with
  | none =>
    { path, status := .changed, fragmentsChanged := fragments.length, backup := saving.backup,
      changes := fragments }
  | some failure =>
    { path, status := .failed, backup := saving.backup, error := some failure.message,
      changes := fragments }

/-- Notes what became of an attempt to save a report. -/
def noteSaving (path : OsText) (saving : Saving) : m Unit :=
  match saving.failure with
  | none => Journal.note .info s!"✅ Migrated {path}"
  | some failure => Journal.note .error s!"❌ Failed to write {path}: {failure.message}"

/-- The entry of a report that would have been saved. -/
def previewedEntry (path : OsText) (fragments : List Change) : Entry :=
  { path, status := .previewed, fragmentsChanged := fragments.length, changes := fragments }

def textToWrite (settings : Settings) (document : Converted) : Option String :=
  if settings.output.dryRun then none else document.text

/-- Saves a changed document with its new text, or only says that it would be saved. -/
def settleChanged (settings : Settings) (storage : Storage m) (path : OsText)
    (fragments : List Change) : Option String → m Entry
  | some text => do
    let saving ← save settings storage path text
    noteSaving path saving
    return savedEntry path fragments saving
  | none => do
    Journal.note .info s!"💡 Would migrate {path}"
    return previewedEntry path fragments

/-- Brings a document to its end and gives its entry. -/
def settle (settings : Settings) (storage : Storage m) (document : Converted) : m Entry :=
  match document.outcome with
  | .unchanged => return { path := document.path, status := .unchanged }
  | .failed reason =>
    return { path := document.path, status := .failed, error := some reason }
  | .changed fragments =>
    settleChanged settings storage document.path fragments (textToWrite settings document)

/-- Saves all documents and sums up the run since its start. -/
def saveAll [Clock m] (settings : Settings) (storage : Storage m) (startedAt : Timestamp)
    (documents : List Converted) : ExceptT Failure m Summary :=
  ExceptT.lift do
    let entries ← documents.mapM (settle settings storage)
    return Summary.ofEntries startedAt (← Clock.now) settings.output.dryRun entries

def phases [FileSystem m] [Clock m] (settings : Settings) (storage : Storage m)
    (startedAt : Timestamp) : Phases m :=
  ⟨gather settings storage, convertAll settings, saveAll settings storage startedAt⟩

end ReportMigration.Migration
