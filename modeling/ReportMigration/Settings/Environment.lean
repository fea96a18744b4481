import ReportMigration.Text.Scan

/-!
# Placeholders

A configuration may name variables of the environment as `$` and a name in braces. Each name of a
variable that is set gives way to its value; the value itself is not searched again.
-/

namespace ReportMigration

open Text

abbrev Environment := List Char → Option (List Char)

namespace Environment

def ofList (entries : List (String × String)) : Environment := fun name =>
  (entries.find? fun entry => entry.1.toList == name).map (·.2.toList)

def placeholder : Scan (List Char) := do
  Scan.one (· == '$')
  Scan.one (· == '\x7b')
  let name ← Scan.written (Scan.run₁ (· != '\x7d'))
  Scan.one (· == '\x7d')
  pure name

def valueOf (env : Environment) (name : List Char) : List Char :=
  (env name).getD ("$\x7b".toList ++ name ++ ['\x7d'])

/-- Replaces every placeholder of a text whose variable is set. -/
def expand (env : Environment) (text : List Char) : List Char :=
  (env.valueOf <$> placeholder).substitute text

end Environment

end ReportMigration
