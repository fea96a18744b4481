import ReportMigration.Report.Change
import ReportMigration.Report.Json
import ReportMigration.Report.Timestamp
import ReportMigration.Text.OsText

/-!
# Summaries

What a migration did: an entry for each document and the totals over them.
-/

namespace ReportMigration.Report

/-- What became of a document. It is previewed if it would have been changed. -/
inductive Status where
  | unchanged
  | changed
  | previewed
  | failed
deriving DecidableEq, Repr

def Status.name : Status → String
  | unchanged => "unchanged"
  | changed => "changed"
  | previewed => "previewed"
  | failed => "failed"

/-- What became of the document at a path. -/
structure Entry where
  path : OsText
  status : Status
  fragmentsChanged : Nat := 0
  backup : Option OsText := none
  error : Option String := none
  changes : List Change := []
deriving DecidableEq, Repr

/-- The numbers of documents by what became of them, and of the fragments converted. A previewed
document counts as changed. -/
structure Totals where
  scanned : Nat := 0
  changed : Nat := 0
  unchanged : Nat := 0
  failed : Nat := 0
  fragmentsConverted : Nat := 0
deriving DecidableEq, Repr

namespace Totals

def count (t : Totals) (entry : Entry) : Totals :=
  let counted := match entry.status with
    | .changed | .previewed => { t with changed := t.changed + 1 }
    | .unchanged => { t with unchanged := t.unchanged + 1 }
    | .failed => { t with failed := t.failed + 1 }
  { counted with
    scanned := t.scanned + 1
    fragmentsConverted := t.fragmentsConverted + entry.fragmentsChanged }

def ofEntries (entries : List Entry) : Totals :=
  entries.foldl count {}

end Totals

/-- The summary of a run. -/
structure Summary where
  startedAt : Timestamp
  finishedAt : Timestamp
  dryRun : Bool
  entries : List Entry
  totals : Totals
deriving DecidableEq, Repr

namespace Summary

/-- The summary of a run over documents that ends now. -/
def ofEntries (startedAt finishedAt : Timestamp) (dryRun : Bool) (entries : List Entry) : Summary :=
  ⟨startedAt, finishedAt, dryRun, entries, Totals.ofEntries entries⟩

def hasFailures (s : Summary) : Bool :=
  0 < s.totals.failed

end Summary

def Change.toJson (c : Change) : Json :=
  .object [("field", .string c.field), ("index", .count c.index), ("before", .string c.before),
    ("after", .string c.after), ("cdata", .bool c.cdata)]

/-- The value of an entry, of which both paths have to be texts. -/
def Entry.toJson (e : Entry) : Option Json := do
  let path ← e.path.toText?
  let backup ← e.backup.mapM OsText.toText?
  return .object [("path", .text path), ("status", .text e.status.name),
    ("fragments_changed", .count e.fragmentsChanged), ("backup", .optional .text backup),
    ("error", .optional .text e.error), ("changes", .list (e.changes.map Change.toJson))]

def Totals.toJson (t : Totals) : Json :=
  .object [("scanned", .count t.scanned), ("changed", .count t.changed),
    ("unchanged", .count t.unchanged), ("failed", .count t.failed),
    ("fragments_rewritten", .count t.fragmentsConverted)]

namespace Summary

def toJson (s : Summary) : Option Json := do
  let documents ← s.entries.mapM Entry.toJson
  return .object [("started_at", .text s.startedAt.display),
    ("finished_at", .text s.finishedAt.display), ("dry_run", .bool s.dryRun),
    ("documents", .list documents), ("totals", s.totals.toJson)]

/-- The text of the file in which a summary is kept. There is none if a path in it is no text. -/
def display (s : Summary) : Option String :=
  s.toJson.map Json.display

end Summary

end ReportMigration.Report
