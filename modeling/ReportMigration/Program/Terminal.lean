import ReportMigration.Journal
import ReportMigration.Failure

/-!
# Terminals

What a program has of its surroundings besides files: its input and outputs, the variables of the
environment and the log.
-/

namespace ReportMigration.Program

/-- A terminal. Nothing is logged before the log is opened. -/
class Terminal (m : Type → Type) where
  environment : m (List (String × String))
  readInput : ExceptT IoFault m String
  print : String → m Unit
  complain : String → m Unit
  openLog : LogStyle → m Unit

/-- Tells the user about a failure and what can be done about it. -/
def explain {m : Type → Type} [Monad m] [Terminal m] (failure : Failure) : m Unit := do
  Terminal.complain s!"❌ {failure.userMessage}"
  Terminal.complain s!"💡 建議: {failure.suggestion}"

end ReportMigration.Program
