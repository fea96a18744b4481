import ReportMigration.Sql.Layout
import ReportMigration.Sql.Standard

/-!
# SQL fragments

The conversion of a fragment of SQL from one dialect to the other, with or without a new layout.
Anything that no rule knows stays as it is, so a conversion cannot fail.
-/

namespace ReportMigration.Sql

def applyStandard (sql : List Char) : List Char :=
  (RuleSet.standard.convert sql).text

/-- Applies the standard rules to a fragment, and lays the outcome out if asked to. -/
def convert (format : Bool) (sql : List Char) : List Char :=
  if format then Layout.layOut (applyStandard sql) else applyStandard sql

end ReportMigration.Sql
