import ReportMigration.Journal

/-!
# The monitor

Notes how much of the machine a run uses. A monitor that is not enabled notes nothing.
-/

namespace ReportMigration

/-- What a run uses: the load of a processor in tenths of a percent, memory now and at most so far
in megabytes, and the time since its start in nanoseconds. -/
structure Usage where
  load : Nat
  memory : Nat
  peak : Nat
  elapsed : Nat
deriving DecidableEq, Repr

/-- A gauge of what a run uses. -/
class Gauge (m : Type → Type) where
  usage : m Usage

namespace Usage

/-- A number with the digits of a fraction after a dot, without zeros at its end. -/
def decimal (whole : Nat) (fraction : List Char) : String :=
  let digits := (fraction.reverse.dropWhile (· == '0')).reverse
  if digits.isEmpty then toString whole else toString whole ++ "." ++ String.ofList digits

/-- A length of time in the largest unit that it fills. -/
def duration (nanoseconds : Nat) : String :=
  if 1000000000 ≤ nanoseconds then
    decimal (nanoseconds / 1000000000) (Report.padded 9 (nanoseconds % 1000000000)) ++ "s"
  else if 1000000 ≤ nanoseconds then
    decimal (nanoseconds / 1000000) (Report.padded 6 (nanoseconds % 1000000)) ++ "ms"
  else if 1000 ≤ nanoseconds then
    decimal (nanoseconds / 1000) (Report.padded 3 (nanoseconds % 1000)) ++ "µs"
  else toString nanoseconds ++ "ns"

/-- The note about what a run uses in a phase. -/
def phaseMessage (u : Usage) (phase : String) : String :=
  s!"📊 {phase} - CPU: {u.load / 10}.{u.load % 10}%, Memory: {u.memory}MB, Peak: {u.peak}MB, " ++
    s!"Time: {duration u.elapsed}"

/-- The note about what a run used. -/
def finalMessage (u : Usage) : String :=
  s!"📊 Final Stats - Total Time: {duration u.elapsed}, Peak Memory: {u.peak}MB"

end Usage

/-- A monitor. -/
structure Monitor where
  enabled : Bool := false
deriving DecidableEq, Repr

namespace Monitor

variable {m : Type → Type} [Monad m] [Journal m] [Gauge m]

/-- What the run uses, if the monitor is enabled. -/
def usage? (monitor : Monitor) : m (Option Usage) :=
  if monitor.enabled then some <$> Gauge.usage else pure none

def notePhase (monitor : Monitor) (phase : String) : m Unit := do
  if let some usage ← monitor.usage? then Journal.note .info (usage.phaseMessage phase)

def noteEnd (monitor : Monitor) : m Unit := do
  if let some usage ← monitor.usage? then Journal.note .info usage.finalMessage

end Monitor

end ReportMigration
