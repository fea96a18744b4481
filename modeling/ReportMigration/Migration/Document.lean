import ReportMigration.Markup.Fields
import ReportMigration.Settings.Basic
import ReportMigration.Sql.Fragment

/-!
# Documents of a migration

A report document on its way through a migration: as it is read, and as it is converted.
-/

namespace ReportMigration.Migration

open Markup

/-- A report document, or the reason why it cannot be read. -/
structure Source where
  path : OsText
  content : Except String String

/-- What the conversion of a document comes to. -/
inductive Outcome where
  | unchanged
  | changed (fragments : List Report.Change)
  | failed (reason : String)
deriving DecidableEq, Repr

/-- A document after its conversion, with its new text if there is one. -/
structure Converted where
  path : OsText
  outcome : Outcome
  text : Option String
deriving DecidableEq, Repr

def convertText (settings : Settings) (text : String) : Conversion Unit :=
  convertFields settings.source.fields settings.output.preferCdata
    (Transform.ofPure (Sql.convert settings.output.formatSql)) text.toList ()

/-- What the conversion of the document at a path comes to, with its new text. -/
def outcomeOf (path : OsText) :
    Except DocumentFault ConvertedDocument → Outcome × Option String
  | .ok document =>
    if document.changes.isEmpty then (.unchanged, none)
    else (.changed document.changes, some (String.ofList document.content))
  | .error fault => (.failed (Failure.document path fault.message).message, none)

/-- Converts a document. A document that cannot be read fails for the same reason. -/
def convertSource (settings : Settings) (source : Source) : Converted × List Skipped :=
  match source.content with
  | .error reason => (⟨source.path, .failed reason, none⟩, [])
  | .ok text =>
    let conversion := convertText settings text
    let (outcome, converted) := outcomeOf source.path conversion.result
    (⟨source.path, outcome, converted⟩, conversion.skipped)

end ReportMigration.Migration
