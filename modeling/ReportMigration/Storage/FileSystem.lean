import ReportMigration.Failure
import ReportMigration.Journal
import ReportMigration.Storage.Path
import ReportMigration.Storage.Tree

/-!
# File systems and storages

What a migration asks of the file system, and the storage of reports below a directory that is
built on it.
-/

namespace ReportMigration

namespace Storage

/-- What a walk finds: a file, or an entry that cannot be looked into. -/
inductive Found where
  | file (place : Place)
  | unreadable (message : String)
deriving DecidableEq, Repr

end Storage

/-- The operations of a file system. A walk takes the path of a directory and gives the places of
the files below it in the order of their names. -/
class FileSystem (m : Type → Type) where
  readText : OsText → ExceptT IoFault m String
  writeText : OsText → String → ExceptT IoFault m Unit
  copyFile : OsText → OsText → ExceptT IoFault m Unit
  createDirectories : OsText → ExceptT IoFault m Unit
  isPresent : OsText → ExceptT IoFault m Bool
  isDirectory : OsText → m Bool
  walk : OsText → m (List Storage.Found)

/-- Where reports are read, saved and kept aside before they are saved. Keeping a report aside gives
the path of its backup. -/
structure Storage (m : Type → Type) where
  readReport : OsText → ExceptT Failure m String
  writeReport : OsText → String → ExceptT Failure m Unit
  backupReport : OsText → String → ExceptT Failure m OsText

namespace Storage

variable {m : Type → Type} [Monad m]

/-- A fault of the file system as a failure of the migration. -/
def asFailure {α : Type} (action : ExceptT IoFault m α) : ExceptT Failure m α :=
  ExceptT.adapt Failure.io action

/-- The storage of the reports below a directory. The first backup of a report is kept, so that a
later run does not lose what was there before the first one. -/
def below [FileSystem m] [Journal m] (base : OsText) : Storage m where
  readReport path := asFailure (FileSystem.readText (Path.join base path))
  writeReport path text := asFailure do
    let target := Path.join base path
    match Path.parent target with
    | some directory => FileSystem.createDirectories directory
    | none => pure ()
    FileSystem.writeText target text
  backupReport path suffix := asFailure do
    let backup := path ++ suffix
    let target := Path.join base backup
    if ← FileSystem.isPresent target then
      Journal.note (m := m) .debug s!"Backup already exists: {target}"
    else
      FileSystem.copyFile (Path.join base path) target
      Journal.note (m := m) .debug s!"Backed up {path} -> {target}"
    return backup

end Storage

end ReportMigration
