import ReportMigration.Text.Classes

/-!
# Numbers and dates

Which texts are numbers, dates and times.
-/

namespace ReportMigration.Toml

open Text

/-- Digits of a class with single underscores between them. -/
def isDigits (digit : Char → Bool) : List Char → Bool
  | [] => false
  | [c] => digit c
  | c :: '_' :: rest => digit c && isDigits digit rest
  | c :: rest => digit c && isDigits digit rest

def dropSign : List Char → List Char
  | '+' :: rest => rest
  | '-' :: rest => rest
  | text => text

/-- A whole number in decimal digits without a leading zero. -/
def isDecimal (text : List Char) : Bool :=
  isDigits isAsciiDigit text && (text.length == 1 || text.head? != some '0')

def isHexDigit (c : Char) : Bool :=
  isAsciiDigit c || ('a' ≤ c && c ≤ 'f') || ('A' ≤ c && c ≤ 'F')

/-- The number that digits of a base mean. Underscores between them do not count. -/
def numberIn (base : Nat) (digits : List Char) : Nat :=
  digits.foldl (fun n c => match digitValue base c with
    | some d => base * n + d
    | none => n) 0

/-- Whether a whole number has at most 128 bits. -/
def fits (negative : Bool) (n : Nat) : Bool :=
  if negative then n ≤ Nat.pow 2 127 else n < Nat.pow 2 128

def isInteger : List Char → Bool
  | '0' :: 'x' :: digits => isDigits isHexDigit digits && fits false (numberIn 16 digits)
  | '0' :: 'o' :: digits =>
    isDigits (fun c => '0' ≤ c && c ≤ '7') digits && fits false (numberIn 8 digits)
  | '0' :: 'b' :: digits =>
    isDigits (fun c => c == '0' || c == '1') digits && fits false (numberIn 2 digits)
  | text => isDecimal (dropSign text) && fits (text.head? == some '-') (numberIn 10 (dropSign text))

/-- Cuts a text at the first character of a class, which belongs to neither part. -/
def cutOn (test : Char → Bool) (text : List Char) : List Char × Option (List Char) :=
  match text.dropWhile (!test ·) with
  | [] => (text, none)
  | _ :: rest => (text.takeWhile (!test ·), some rest)

def exponentOf (text : List Char) : Int :=
  let n : Int := numberIn 10 (dropSign text)
  if text.head? == some '-' then -n else n

/-- The least number that is rounded to infinity when it is kept in 64 bits. -/
def infiniteFrom : Nat := Nat.pow 2 1024 - Nat.pow 2 970

/-- Whether digits times a power of ten are finite when they are kept in 64 bits. Digits that are
far from the limit are not multiplied out. -/
def isFinite (digits : Nat) (exponent : Int) : Bool :=
  let size := (toString digits).length + exponent
  if digits = 0 || size < 300 then true
  else if 320 < size then false
  else if 0 ≤ exponent then digits * Nat.pow 10 exponent.toNat < infiniteFrom
  else digits < infiniteFrom * Nat.pow 10 exponent.natAbs

def isFloat (text : List Char) : Bool :=
  let text := dropSign text
  if text == "inf".toList || text == "nan".toList then true
  else
    let (mantissa, exponent) := cutOn (fun c => c == 'e' || c == 'E') text
    let (whole, fraction) := cutOn (· == '.') mantissa
    let places := ((fraction.getD []).filter isAsciiDigit).length
    (exponent.isSome || fraction.isSome) && isDecimal whole
      && fraction.all (isDigits isAsciiDigit)
      && exponent.all (fun digits => isDigits isAsciiDigit (dropSign digits))
      && isFinite (numberIn 10 (whole ++ fraction.getD [])) (exponentOf (exponent.getD []) - places)

/-- The number that a text of decimal digits means. -/
def number (text : List Char) : Option Nat :=
  if text.all isAsciiDigit then
    some (text.foldl (fun n c => 10 * n + (c.toNat - '0'.toNat)) 0)
  else none

def daysIn (year month : Nat) : Nat :=
  if month == 2 then
    if year % 4 == 0 && (year % 100 != 0 || year % 400 == 0) then 29 else 28
  else if month == 4 || month == 6 || month == 9 || month == 11 then 30
  else 31

def isDate : List Char → Bool
  | [y₁, y₂, y₃, y₄, '-', m₁, m₂, '-', d₁, d₂] =>
    match number [y₁, y₂, y₃, y₄], number [m₁, m₂], number [d₁, d₂] with
    | some year, some month, some day =>
      1 ≤ month && month ≤ 12 && 1 ≤ day && day ≤ daysIn year month
    | _, _, _ => false
  | _ => false

def isTime : List Char → Bool
  | h₁ :: h₂ :: ':' :: m₁ :: m₂ :: ':' :: s₁ :: s₂ :: fraction =>
    match number [h₁, h₂], number [m₁, m₂], number [s₁, s₂] with
    | some hour, some minute, some second =>
      hour ≤ 23 && minute ≤ 59 && second ≤ 60 &&
        match fraction with
        | [] => true
        | '.' :: digits => !digits.isEmpty && digits.all isAsciiDigit
        | _ => false
    | _, _, _ => false
  | _ => false

/-- An offset from universal time such as `Z` or `+01:00`. -/
def isOffset : List Char → Bool
  | ['Z'] => true
  | ['z'] => true
  | [sign, h₁, h₂, ':', m₁, m₂] =>
    (sign == '+' || sign == '-') &&
      match number [h₁, h₂], number [m₁, m₂] with
      | some hour, some minute => hour ≤ 23 && minute ≤ 59
      | _, _ => false
  | _ => false

def isClock (text : List Char) : Bool :=
  let time := text.takeWhile fun c => isAsciiDigit c || c == ':' || c == '.'
  let offset := text.drop time.length
  isTime time && (offset.isEmpty || isOffset offset)

def isDateTime (text : List Char) : Bool :=
  isDate text || isTime text ||
    (isDate (text.take 10) && isClock (text.drop 11) &&
      match text[10]? with
      | some c => c == 'T' || c == 't' || c == ' '
      | none => false)

def isScalar (text : List Char) : Bool :=
  isInteger text || isFloat text || isDateTime text

end ReportMigration.Toml
