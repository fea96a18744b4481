import ReportMigration.Failure
import ReportMigration.Report.Summary
import ReportMigration.Text.Classes
import ReportMigration.Text.Utf8

/-!
# Reading summaries

Reads a summary back from its written form. Fields that a summary does not have are passed over,
and fields that may be absent may also be left out.
-/

namespace ReportMigration.Report

open Text

namespace Json

/-- Why a text is not a value. -/
inductive Fault where
  | endInValue
  | endInText
  | endInList
  | endInObject
  | value
  | word
  | digits
  | separator
  | listEnd
  | objectEnd
  | extraComma
  | key
  | escape
  | character
  | controlCharacter
  | extraText
deriving DecidableEq, Repr

def Fault.message : Fault → String
  | endInValue => "EOF while parsing a value"
  | endInText => "EOF while parsing a string"
  | endInList => "EOF while parsing a list"
  | endInObject => "EOF while parsing an object"
  | value => "expected value"
  | word => "expected ident"
  | digits => "invalid number"
  | separator => "expected `:`"
  | listEnd => "expected `,` or `]`"
  | objectEnd => "expected `,` or `\x7d`"
  | extraComma => "trailing comma"
  | key => "key must be a string"
  | escape => "invalid escape"
  | character => "invalid unicode code point"
  | controlCharacter => "control character (\\u0000-\\u001F) found while parsing a string"
  | extraText => "trailing characters"

/-- A fault and the text from the place where it is found. -/
abbrev Stop := Fault × List Char

/-- The white space between the parts of a value. -/
def isSpace (c : Char) : Bool :=
  c == ' ' || c == '\t' || c == '\n' || c == '\r'

/-- Passes over white space. -/
def skip (s : List Char) : List Char :=
  s.dropWhile isSpace

/-- The number that digits of base sixteen stand for. -/
def hexNumber (digits : List Char) : Option Nat :=
  digits.foldlM (fun n c => (digitValue 16 c).map (16 * n + ·)) 0

def character? (n : Nat) : Option Char :=
  if n < 55296 ∨ (57343 < n ∧ n < 1114112) then some (Char.ofNat n) else none

/-- The character that stands for itself, or for a control character, after a backslash. -/
def unescape : Char → Option Char
  | '"' => some '"'
  | '\\' => some '\\'
  | '/' => some '/'
  | 'b' => some '\x08'
  | 'f' => some '\x0c'
  | 'n' => some '\n'
  | 'r' => some '\r'
  | 't' => some '\t'
  | _ => none

/-- Puts a character before a text that was read. -/
def before (c : Char) :
    Except Stop (List Char × List Char) → Except Stop (List Char × List Char)
  | .ok (text, rest) => .ok (c :: text, rest)
  | .error fault => .error fault

def readText : List Char → Except Stop (List Char × List Char)
  | [] => .error (.endInText, [])
  | '"' :: rest => .ok ([], rest)
  | '\\' :: 'u' :: a :: b :: c :: d :: rest =>
    match hexNumber [a, b, c, d] with
    | none => .error (.escape, rest)
    | some n =>
      match character? n with
      | none => .error (.character, rest)
      | some found => before found (readText rest)
  | '\\' :: 'u' :: _ => .error (.endInText, [])
  | '\\' :: c :: rest =>
    match unescape c with
    | none => .error (.escape, c :: rest)
    | some found => before found (readText rest)
  | c :: rest =>
    if c.toNat < 32 then .error (.controlCharacter, c :: rest) else before c (readText rest)

def readDigits (s : List Char) : Option (Nat × List Char) :=
  let digits := s.takeWhile isAsciiDigit
  if digits.isEmpty then none
  else some (digits.foldl (fun n c => 10 * n + (c.toNat - 48)) 0, s.drop digits.length)

def readNumber (negative : Bool) (s : List Char) : Except Stop (Json × List Char) :=
  match readDigits s with
  | none => .error (if s.isEmpty then .endInValue else .digits, s)
  | some (n, rest) => .ok (number (if negative then -n else n), rest)

def readWord (value : Json) : List Char → List Char → Except Stop (Json × List Char)
  | [], s => .ok (value, s)
  | _ :: _, [] => .error (.endInValue, [])
  | w :: word, c :: s => if w = c then readWord value word s else .error (.word, c :: s)

mutual

/-- Reads a value, which holds at most as many values inside each other as the fuel allows. -/
def readValue : Nat → List Char → Except Stop (Json × List Char)
  | 0, s => .error (.value, s)
  | fuel + 1, s =>
    match skip s with
    | [] => .error (.endInValue, [])
    | 'n' :: rest => readWord null "ull".toList rest
    | 't' :: rest => readWord (bool true) "rue".toList rest
    | 'f' :: rest => readWord (bool false) "alse".toList rest
    | '"' :: rest => do
      let (text, rest) ← readText rest
      pure (string text, rest)
    | '-' :: rest => readNumber true rest
    | '[' :: rest =>
      match skip rest with
      | [] => .error (.endInList, [])
      | ']' :: rest => .ok (list [], rest)
      | rest => do
        let (items, rest) ← readItems fuel rest
        pure (list items, rest)
    | '\x7b' :: rest =>
      match skip rest with
      | [] => .error (.endInObject, [])
      | '\x7d' :: rest => .ok (object [], rest)
      | rest => do
        let (fields, rest) ← readFields fuel rest
        pure (object fields, rest)
    | c :: rest =>
      if isAsciiDigit c then readNumber false (c :: rest) else .error (.value, c :: rest)

/-- Reads the items of a list up to its closing bracket. -/
def readItems : Nat → List Char → Except Stop (List Json × List Char)
  | 0, s => .error (.value, s)
  | fuel + 1, s => do
    let (item, rest) ← readValue fuel s
    match skip rest with
    | [] => .error (.endInList, [])
    | ']' :: rest => pure ([item], rest)
    | ',' :: rest =>
      if (skip rest).head? = some ']' then .error (.extraComma, skip rest)
      else
        let (items, rest) ← readItems fuel rest
        pure (item :: items, rest)
    | rest => .error (.listEnd, rest)

/-- Reads the fields of an object up to its closing brace. -/
def readFields : Nat → List Char → Except Stop (List (String × Json) × List Char)
  | 0, s => .error (.value, s)
  | fuel + 1, s => do
    match skip s with
    | [] => .error (.endInValue, [])
    | '"' :: rest =>
      let (key, rest) ← readText rest
      match skip rest with
      | [] => .error (.endInObject, [])
      | ':' :: rest =>
        let (value, rest) ← readValue fuel rest
        match skip rest with
        | [] => .error (.endInObject, [])
        | '\x7d' :: rest => pure ([(String.ofList key, value)], rest)
        | ',' :: rest =>
          if (skip rest).head? = some '\x7d' then .error (.extraComma, skip rest)
          else
            let (fields, rest) ← readFields fuel rest
            pure ((String.ofList key, value) :: fields, rest)
        | rest => .error (.objectEnd, rest)
      | rest => .error (.separator, rest)
    | rest => .error (.key, rest)

end

/-- The line and the column in bytes of the end of a text. -/
def endOf (text : List Char) : Nat × Nat :=
  let last := text.reverse.takeWhile (· != '\n')
  (1 + text.count '\n', byteLength last)

/-- A fault with its place. The place of a fault is that of the character with which it shows. -/
def faultMessage (text : List Char) (fault : Fault) (rest : List Char) : String :=
  let (line, column) := endOf (text.take (text.length - rest.length + 1))
  s!"{fault.message} at line {line} column {column}"

/-- Reads a text that is one value. Every value takes at least one character, so the length of the
text is fuel enough. -/
def parse (text : List Char) : Except Failure Json :=
  match readValue (text.length + 1) text with
  | .error (fault, rest) => .error (.serialization (faultMessage text fault rest))
  | .ok (value, rest) =>
    if (skip rest).isEmpty then .ok value
    else .error (.serialization (faultMessage text .extraText (skip rest)))

def asText : Json → Option (List Char)
  | string s => some s
  | _ => none

def asBool : Json → Option Bool
  | bool value => some value
  | _ => none

/-- A number that is not negative and has at most 64 bits. -/
def asCount : Json → Option Nat
  | number n => if 0 ≤ n ∧ n < 18446744073709551616 then some n.toNat else none
  | _ => none

def asList : Json → Option (List Json)
  | list items => some items
  | _ => none

def optionalField {α : Type} (value : Json) (key : String) (decode : Json → Option α) :
    Option (Option α) :=
  match value.field? key with
  | none => some none
  | some null => some none
  | some found => (decode found).map some

def requiredField {α : Type} (value : Json) (key : String) (decode : Json → Option α) : Option α :=
  (value.field? key).bind decode

end Json

namespace Timestamp

def readUpTo (mark : Char) (s : List Char) : Option (Nat × List Char) := do
  let (n, rest) ← Json.readDigits s
  match rest with
  | c :: rest => if c = mark then pure (n, rest) else none
  | [] => none

def readYear : List Char → Option (Int × List Char)
  | '-' :: s => (readUpTo '-' s).map fun (n, rest) => (-(n : Int), rest)
  | '+' :: s => (readUpTo '-' s).map fun (n, rest) => ((n : Int), rest)
  | s => (readUpTo '-' s).map fun (n, rest) => ((n : Int), rest)

/-- Reads the fraction of a second, of at most nine digits. -/
def readFraction : List Char → Option (Nat × List Char)
  | '.' :: s => do
    let digits := s.takeWhile isAsciiDigit
    let (n, rest) ← Json.readDigits s
    if digits.length ≤ 9 then pure (n * Nat.pow 10 (9 - digits.length), rest) else none
  | s => some (0, s)

/-- Reads the written form of a point in time. -/
def parse (s : List Char) : Option Timestamp := do
  let (year, s) ← readYear s
  let (month, s) ← readUpTo '-' s
  let (day, s) ← readUpTo 'T' s
  let (hour, s) ← readUpTo ':' s
  let (minute, s) ← readUpTo ':' s
  let (second, s) ← Json.readDigits s
  let (nanoseconds, s) ← readFraction s
  let days := Date.toDays ⟨year, month, day⟩
  let valid := Date.ofDays days == ⟨year, month, day⟩ && hour < 24 && minute < 60 && second < 60
  if valid && s == ['Z'] then
    pure ⟨days * 86400 + hour * 3600 + minute * 60 + second, nanoseconds⟩
  else none

end Timestamp

def Status.ofName : String → Option Status
  | "unchanged" => some .unchanged
  | "changed" => some .changed
  | "previewed" => some .previewed
  | "failed" => some .failed
  | _ => none

def Change.ofJson (value : Json) : Option Change := do
  let field ← value.requiredField "field" Json.asText
  let index ← value.requiredField "index" Json.asCount
  let before ← value.requiredField "before" Json.asText
  let after ← value.requiredField "after" Json.asText
  let cdata ← value.requiredField "cdata" Json.asBool
  pure ⟨field, index, before, after, cdata⟩

def Entry.ofJson (value : Json) : Option Entry := do
  let string (found : Json) : Option String := found.asText.map String.ofList
  let path ← value.requiredField "path" string
  let status ← value.requiredField "status" fun found => (string found).bind Status.ofName
  let fragmentsChanged ← value.requiredField "fragments_changed" Json.asCount
  let backup ← value.optionalField "backup" string
  let error ← value.optionalField "error" string
  let changes ← value.requiredField "changes" fun found => found.asList.bind (·.mapM Change.ofJson)
  pure ⟨path, status, fragmentsChanged, backup.map OsText.ofText, error, changes⟩

def Totals.ofJson (value : Json) : Option Totals := do
  let scanned ← value.requiredField "scanned" Json.asCount
  let changed ← value.requiredField "changed" Json.asCount
  let unchanged ← value.requiredField "unchanged" Json.asCount
  let failed ← value.requiredField "failed" Json.asCount
  let fragmentsConverted ← value.requiredField "fragments_rewritten" Json.asCount
  pure ⟨scanned, changed, unchanged, failed, fragmentsConverted⟩

namespace Summary

def ofJson (value : Json) : Option Summary := do
  let time (found : Json) : Option Timestamp := found.asText.bind Timestamp.parse
  let startedAt ← value.requiredField "started_at" time
  let finishedAt ← value.requiredField "finished_at" time
  let dryRun ← value.requiredField "dry_run" Json.asBool
  let entries ← value.requiredField "documents" fun found => found.asList.bind (·.mapM Entry.ofJson)
  let totals ← value.requiredField "totals" Totals.ofJson
  pure ⟨startedAt, finishedAt, dryRun, entries, totals⟩

/-- Reads a summary from the text of its file. -/
def parse (text : String) : Except Failure Summary := do
  let value ← Json.parse text.toList
  match ofJson value with
  | none => .error (.serialization "the fields are not those of a summary")
  | some summary => .ok summary

end Summary

end ReportMigration.Report
