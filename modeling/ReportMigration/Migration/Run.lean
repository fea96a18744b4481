import ReportMigration.Migration.Phases
import ReportMigration.Monitor

/-!
# Runs

Runs the phases of a migration one after the other. The first phase that fails ends the run.
-/

namespace ReportMigration.Migration

open Report

variable {m : Type → Type} [Monad m] [Journal m] [Gauge m]

def totalsMessage (t : Totals) : String :=
  s!"📊 Scanned: {t.scanned}, Changed: {t.changed}, Unchanged: {t.unchanged}, " ++
    s!"Failed: {t.failed}, Fragments: {t.fragmentsConverted}"

def run (monitor : Monitor) (phases : Phases m) : ExceptT Failure m Summary := do
  note .info "🚀 Starting report SQL migration..."
  ExceptT.lift (monitor.notePhase "Start")
  note .info "🔍 Scanning report files..."
  let sources ← phases.gather
  note .info s!"📄 Found {sources.length} report files"
  ExceptT.lift (monitor.notePhase "Extract")
  note .info "✏️ Rewriting embedded SQL..."
  let documents ← phases.convert sources
  ExceptT.lift (monitor.notePhase "Transform")
  note .info "💾 Saving migrated reports..."
  let summary ← phases.save documents
  ExceptT.lift (monitor.notePhase "Load")
  note .info (totalsMessage summary.totals)
  if summary.hasFailures then
    note .warn s!"⚠️ {summary.totals.failed} report(s) could not be migrated"
  ExceptT.lift monitor.noteEnd
  return summary

end ReportMigration.Migration
