/-!
# Changes

One converted fragment of a report document.
-/

namespace ReportMigration.Report

/-- A field whose SQL was converted: the selector that found it, its number among the fields of
the document, its text before and after, and whether it is written as a CDATA section. -/
structure Change where
  field : List Char
  index : Nat
  before : List Char
  after : List Char
  cdata : Bool
deriving DecidableEq, Repr

end ReportMigration.Report
