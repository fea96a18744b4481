import ReportMigration.Sql.Rule
import ReportMigration.Text.Search

/-!
# The standard rules

The rules that turn the SQL dialect of DB2 into that of PostgreSQL, in the order of their
application. The date offset with a folded sign stands before the general one, and `CHAR` of a
date before `CHAR` of anything else.
-/

namespace ReportMigration.Sql

open Text

/-- The last words `WITH UR` and their like, which ask for an isolation level. A semicolon after
them stays. -/
def isolationHint : Scan (List Char) := do
  Scan.blanks₁
  Scan.keyword "WITH"
  Scan.blanks₁
  Scan.anyKeyword ["UR", "CS", "RS", "RR"]
  Scan.wordBoundary
  Scan.orElse
    (do Scan.blanks; Scan.one (· == ';'); Scan.blanks; Scan.finish; pure [';'])
    (do Scan.blanks; Scan.finish; pure [])

def currentDate : Scan Unit := do
  Scan.wordBoundary
  Scan.keyword "CURRENT"
  Scan.orElse (Scan.one (· == '_')) Scan.blanks₁
  Scan.keyword "DATE"

/-- A count and a unit of time, as in `7 DAYS`. -/
def duration : Scan (List Char × List Char) := do
  let count ← Scan.written (Scan.run₁ isDecimalDigit)
  Scan.blanks
  let unit ← Scan.written (Scan.anyKeyword ["DAY", "MONTH", "YEAR"])
  Scan.orElse (Scan.keyword "S") (pure ())
  Scan.wordBoundary
  pure (count, unit.map asciiLower)

/-- An offset of the current date in the new dialect. -/
def intervalOffset (sign : List Char) (amount : List Char × List Char) : List Char :=
  "current_date ".toList ++ sign ++ " INTERVAL '".toList ++ amount.1 ++ [' '] ++ amount.2
    ++ ['\'']

/-- An offset of the current date by a plus sign and a negative count. -/
def signFoldedOffset : Scan (List Char) := do
  currentDate
  Scan.blanks
  Scan.one (· == '+')
  Scan.blanks
  Scan.one (· == '-')
  Scan.blanks
  let amount ← duration
  pure (intervalOffset ['-'] amount)

def dateOffset : Scan (List Char) := do
  currentDate
  Scan.blanks
  let sign ← Scan.written (Scan.one fun c => c == '+' || c == '-')
  Scan.blanks
  let amount ← duration
  pure (intervalOffset sign amount)

def currentTimestamp : Scan (List Char) := do
  Scan.wordBoundary
  Scan.keyword "CURRENT"
  Scan.blanks₁
  Scan.keyword "TIMESTAMP"
  Scan.wordBoundary
  pure "now()".toList

/-- The argument of a call that has one, if it is not empty. -/
def single : List (List Char) → Option (List Char)
  | [expr] => if expr.isEmpty then none else some expr
  | _ => none

/-- Writes the only argument of a call between two texts. -/
def around (before after : String) (args : List (List Char)) : Option (List Char) :=
  (single args).map fun expr => before.toList ++ expr ++ after.toList

/-- Whether an expression mentions a date or a timestamp, in either case. -/
def mentionsTemporal (expr : List Char) : Bool :=
  let lower := expr.map asciiLower
  occursIn "date".toList lower || occursIn "timestamp".toList lower

def isIntegerLiteral (text : List Char) : Bool :=
  !text.isEmpty && text.all isAsciiDigit

/-- At least two characters, the first and the last of which are quotes. -/
def isStringLiteral (text : List Char) : Bool :=
  2 ≤ text.length && text.head? == some '\'' && text.getLast? == some '\''

/-- Writes a decimal conversion with literal precision and scale as a cast. -/
def decimalCast : List (List Char) → Option (List Char)
  | [expr, precision, scale] =>
    if !expr.isEmpty && isIntegerLiteral precision && isIntegerLiteral scale then
      some ("CAST(".toList ++ expr ++ " AS numeric(".toList ++ precision ++ [','] ++ scale
        ++ "))".toList)
    else none
  | _ => none

def formatCall : List (List Char) → Option (List Char)
  | [expr, format] =>
    if !expr.isEmpty && isStringLiteral format then
      some ("to_char(".toList ++ expr ++ ", ".toList ++ format ++ [')'])
    else none
  | _ => none

/-- Writes `CHAR` of an expression that mentions a date as an ISO date. -/
def charOfDate (args : List (List Char)) : Option (List Char) :=
  ((single args).filter mentionsTemporal).bind fun expr =>
    around "to_char(" ", 'YYYY-MM-DD')" [expr]

def callRule (name function : String) (transform : List (List Char) → Option (List Char)) :
    CallRule :=
  ⟨name, function.toList, transform⟩

def isolationHintRule : PatternRule := ⟨"isolation-hint", isolationHint⟩
def signFoldedOffsetRule : PatternRule := ⟨"date-offset-sign-fold", signFoldedOffset⟩
def dateOffsetRule : PatternRule := ⟨"date-offset", dateOffset⟩
def currentTimestampRule : PatternRule := ⟨"current-timestamp", currentTimestamp⟩
def dateCastRule : CallRule := callRule "date-cast" "DATE" (around "(" ")::date")
def timestampCastRule : CallRule :=
  callRule "timestamp-cast" "TIMESTAMP" (around "(" ")::timestamp")
def integerCastRule : CallRule :=
  callRule "integer-cast" "INTEGER" (around "CAST(" " AS integer)")
def bigintCastRule : CallRule := callRule "bigint-cast" "BIGINT" (around "CAST(" " AS bigint)")
def doubleCastRule : CallRule :=
  callRule "double-cast" "DOUBLE" (around "CAST(" " AS double precision)")
def decimalCastRule : CallRule := callRule "decimal-cast" "DECIMAL" decimalCast
def varcharFormatRule : CallRule := callRule "varchar-format" "VARCHAR_FORMAT" formatCall
def charDateRule : CallRule := callRule "char-date" "CHAR" charOfDate
def charCastRule : CallRule := callRule "char-cast" "CHAR" (around "CAST(" " AS char)")

def standardPatterns : List PatternRule :=
  [isolationHintRule, signFoldedOffsetRule, dateOffsetRule, currentTimestampRule]

def standardCalls : List CallRule :=
  [dateCastRule, timestampCastRule, integerCastRule, bigintCastRule, doubleCastRule,
    decimalCastRule, varcharFormatRule, charDateRule, charCastRule]

/-- The rules from DB2 to PostgreSQL in the order of their application. -/
def RuleSet.standard : RuleSet :=
  ⟨standardPatterns.map Rule.pattern ++ standardCalls.map Rule.call⟩

end ReportMigration.Sql
