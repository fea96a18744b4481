import ReportMigration.Settings.Basic
import ReportMigration.Storage.FileSystem
import ReportMigration.Text.Classes

/-!
# Discovery

Finds the report documents below the root of a migration. A report is a file with one of the
wanted extensions that is not a backup of another one.
-/

namespace ReportMigration.Migration

open Storage Text

/-- Whether the name of a file has a wanted extension. Upper and lower case do not matter. An
extension that is no text is none of those. -/
def hasReportExtension (settings : Settings) (name : OsText) : Bool :=
  match (Path.extension name).bind OsText.toText? with
  | none => false
  | some found =>
    settings.source.extensions.any fun wanted =>
      equalIgnoringAsciiCase wanted.toList found.toList

/-- Whether the name of a file is that of a backup. A name that is no text is taken for none,
whatever it ends with. -/
def isBackup (settings : Settings) (name : OsText) : Bool :=
  let suffix := settings.output.backupSuffix.toList
  !suffix.isEmpty &&
    match name.toText? with
    | none => false
    | some text => suffix.isSuffixOf text.toList

def isReport (settings : Settings) (name : OsText) : Bool :=
  hasReportExtension settings name && !isBackup settings name

/-- The name of the file at a place below a root, which may be the root itself. -/
def nameAt (root : OsText) (place : Place) : Option OsText :=
  place.getLast?.or (Path.fileName root)

/-- The path of a report that a walk found, as seen from the root. -/
def reportPath? (settings : Settings) : Found → Option OsText
  | .unreadable _ => none
  | .file place =>
    match nameAt settings.source.root place with
    | none => none
    | some name => if isReport settings name then some (Path.ofNames place) else none

variable {m : Type → Type} [Monad m] [Journal m]

/-- Warns about an entry that cannot be looked into. -/
def noteFound : Found → m Unit
  | .unreadable message => Journal.note .warn s!"⚠️ Skipping unreadable entry: {message}"
  | .file _ => pure ()

/-- The paths of all reports below the root in the order of a walk. An entry that cannot be looked
into is passed over with a warning. -/
def discover [FileSystem m] (settings : Settings) : m (List OsText) := do
  let found ← FileSystem.walk settings.source.root
  found.forM noteFound
  return found.filterMap (reportPath? settings)

end ReportMigration.Migration
