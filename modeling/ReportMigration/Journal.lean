import ReportMigration.Report.Json
import ReportMigration.Report.Timestamp

/-!
# The journal

What a run notes about itself while it goes on, and the form in which the notes are shown.
-/

namespace ReportMigration

/-- How important a note is. -/
inductive Level where
  | debug
  | info
  | warn
  | error
deriving DecidableEq, Repr

def Level.name : Level → String
  | debug => "DEBUG"
  | info => "INFO"
  | warn => "WARN"
  | error => "ERROR"

/-- A place where notes are kept. -/
class Journal (m : Type → Type) where
  note : Level → String → m Unit

/-- Which notes are shown and whether each is an object of JSON. -/
structure LogStyle where
  verbose : Bool
  json : Bool
deriving DecidableEq, Repr

namespace LogStyle

def shows (style : LogStyle) (level : Level) : Bool :=
  style.verbose || level != .debug

def line (style : LogStyle) (time : Report.Timestamp) (level : Level) (message : String) : String :=
  if style.json then
    String.ofList ("\x7b\"timestamp\":".toList
      ++ Report.Json.quote time.displayMicroseconds.toList ++ ",\"level\":".toList
      ++ Report.Json.quote level.name.toList ++ ",\"fields\":\x7b\"message\":".toList
      ++ Report.Json.quote message.toList ++ "\x7d\x7d".toList)
  else
    let blanks := String.ofList (List.replicate (5 - level.name.length) ' ')
    s!"{time.displayMicroseconds} {blanks}{level.name} {message}"

end LogStyle

/-- A clock. -/
class Clock (m : Type → Type) where
  now : m Report.Timestamp

end ReportMigration
