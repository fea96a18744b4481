/-!
# Points in time

Points in time in the form of RFC 3339, always in universal time. The fraction of a second has as
many digits, in groups of three, as it needs.
-/

namespace ReportMigration.Report

/-- A point in time: whole seconds since the start of 1970, which may be negative, and
nanoseconds. -/
structure Timestamp where
  seconds : Int
  nanoseconds : Nat
deriving DecidableEq, Repr

/-- A day of the Gregorian calendar. -/
structure Date where
  year : Int
  month : Nat
  day : Nat
deriving DecidableEq, Repr

namespace Date

/-- The date of a day counted from the start of 1970. Years are taken to start in March, so that a
leap day is the last of its year, and are counted in cycles of 400 years. -/
def ofDays (days : Int) : Date :=
  let shifted := days + 719468
  let cycle := shifted.fdiv 146097
  let inCycle := (shifted.fmod 146097).toNat
  let yearInCycle := (inCycle - inCycle / 1460 + inCycle / 36524 - inCycle / 146096) / 365
  let inYear := inCycle - (365 * yearInCycle + yearInCycle / 4 - yearInCycle / 100)
  let march := (5 * inYear + 2) / 153
  let month := if march < 10 then march + 3 else march - 9
  let year := cycle * 400 + yearInCycle
  ⟨if month ≤ 2 then year + 1 else year, month, inYear - (153 * march + 2) / 5 + 1⟩

/-- The day of a date counted from the start of 1970. -/
def toDays (d : Date) : Int :=
  let year := if d.month ≤ 2 then d.year - 1 else d.year
  let cycle := year.fdiv 400
  let yearInCycle := (year.fmod 400).toNat
  let march := if 2 < d.month then d.month - 3 else d.month + 9
  let inYear := (153 * march + 2) / 5 + d.day - 1
  let inCycle := yearInCycle * 365 + yearInCycle / 4 - yearInCycle / 100 + inYear
  cycle * 146097 + inCycle - 719468

end Date

/-- The decimal digits of a number, with zeros before them up to a width. -/
def padded (width n : Nat) : List Char :=
  let digits := (toString n).toList
  List.replicate (width - digits.length) '0' ++ digits

namespace Timestamp

/-- A year. One that has not four digits or lies before the year 0 has a sign. -/
def yearText (year : Int) : List Char :=
  if year < 0 then '-' :: padded 4 year.natAbs
  else if 9999 < year then '+' :: padded 4 year.natAbs
  else padded 4 year.natAbs

def fractionText (nanoseconds : Nat) : List Char :=
  if nanoseconds = 0 then []
  else if nanoseconds % 1000000 = 0 then '.' :: padded 3 (nanoseconds / 1000000)
  else if nanoseconds % 1000 = 0 then '.' :: padded 6 (nanoseconds / 1000)
  else '.' :: padded 9 nanoseconds

/-- The date and the time of day, without the mark of the time zone. -/
def localText (t : Timestamp) (fraction : Nat → List Char) : List Char :=
  let date := Date.ofDays (t.seconds.fdiv 86400)
  let second := (t.seconds.fmod 86400).toNat
  yearText date.year ++ '-' :: padded 2 date.month ++ '-' :: padded 2 date.day ++
    'T' :: padded 2 (second / 3600) ++ ':' :: padded 2 (second / 60 % 60) ++
    ':' :: padded 2 (second % 60) ++ fraction t.nanoseconds

/-- The written form of a point in time. -/
def display (t : Timestamp) : String :=
  String.ofList (t.localText fractionText ++ ['Z'])

/-- The written form of a point in time with microseconds. -/
def displayMicroseconds (t : Timestamp) : String :=
  String.ofList (t.localText (fun n => '.' :: padded 6 (n / 1000)) ++ ['Z'])

end Timestamp

end ReportMigration.Report
