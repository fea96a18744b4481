import ReportMigration.Toml.Quoted
import ReportMigration.Toml.Value

/-!
# TOML documents

Reads a document into its table. A text that is no document has no reading.
-/

namespace ReportMigration.Toml

open Text

/-- Reads from a text and leaves the rest of it. -/
abbrev Parser := StateT (List Char) Option

namespace Parser

def ahead : Parser (List Char) := get

def refuse {α : Type} : Parser α := fun _ => none

/-- Reads the longest run of characters of a class. -/
def run (test : Char → Bool) : Parser (List Char) := fun text =>
  some (text.takeWhile test, text.dropWhile test)

def char (c : Char) : Parser Unit := fun
  | x :: rest => if x = c then some ((), rest) else none
  | [] => none

def blanks : Parser Unit := do
  let _ ← run fun c => c == ' ' || c == '\t'

def comment : Parser Unit := do
  match ← ahead with
  | '#' :: _ =>
    let text ← run fun c => c != '\n' && c != '\r'
    if text.all isPlain then pure () else refuse
  | _ => pure ()

def lineEnd : Parser Unit := do
  match ← ahead with
  | [] => pure ()
  | '\n' :: rest => set rest
  | '\r' :: '\n' :: rest => set rest
  | _ => refuse

/-- White space, comments and ends of lines, at most the given number of lines. -/
def lines : Nat → Parser Unit
  | 0 => pure ()
  | n + 1 => do
    blanks
    comment
    match ← ahead with
    | '\n' :: rest => do set rest; lines n
    | '\r' :: '\n' :: rest => do set rest; lines n
    | _ => pure ()

/-- White space, comments and ends of lines. -/
def gap : Parser Unit := do
  lines ((← ahead).length + 1)

def isBareKey (c : Char) : Bool :=
  isAsciiAlphanumeric c || c == '_' || c == '-'

def key : Parser Key := do
  match ← ahead with
  | '"' :: rest => fun _ => readBasic rest
  | '\'' :: rest => fun _ => readLiteral rest
  | _ =>
    let name ← run isBareKey
    if name.isEmpty then refuse else pure name

/-- Keys with dots between them, at most the given number after the first. -/
def moreKeys : Nat → Parser (List Key)
  | 0 => pure []
  | n + 1 => do
    blanks
    match ← ahead with
    | '.' :: rest =>
      set rest
      blanks
      let first ← key
      return first :: (← moreKeys n)
    | _ => pure []

def dottedKey : Parser (List Key) := do
  let first ← key
  return first :: (← moreKeys (← ahead).length)

/-- A character that may stand in a number, a date or a word. -/
def isScalarChar (c : Char) : Bool :=
  isAsciiAlphanumeric c || c == '+' || c == '-' || c == '_' || c == '.' || c == ':'

/-- A number, a date, a time or a truth value. A space may stand between a date and a time. -/
def scalar : Parser Value := do
  let word ← run isScalarChar
  let text ← match ← ahead with
    | ' ' :: c :: rest =>
      if isDate word && isAsciiDigit c then do
        set (c :: rest)
        let clock ← run isScalarChar
        pure (word ++ ' ' :: clock)
      else pure word
    | _ => pure word
  if text == "true".toList then pure (.boolean true)
  else if text == "false".toList then pure (.boolean false)
  else if isScalar text then pure (.scalar text)
  else refuse

/-- The items of an array after its opening bracket, at most the given number. -/
def items (item : Parser Value) : Nat → Parser (List Value)
  | 0 => refuse
  | n + 1 => do
    gap
    match ← ahead with
    | ']' :: rest => do set rest; pure []
    | _ =>
      let first ← item
      gap
      match ← ahead with
      | ',' :: rest => do set rest; return first :: (← items item n)
      | ']' :: rest => do set rest; pure [first]
      | _ => refuse

def entry (value : Parser Value) : Parser (List Key × Value) := do
  let name ← dottedKey
  blanks
  char '='
  blanks
  return (name, ← value)

/-- The entries of an inline table after its first brace and the given entries, at most the given
number. -/
def inlineEntries (value : Parser Value) : Nat → Entries → Parser Entries
  | 0, _ => refuse
  | n + 1, entries => do
    blanks
    let (name, meant) ← entry value
    match entries.define meant name with
    | none => refuse
    | some entries =>
      blanks
      match ← ahead with
      | ',' :: rest => do set rest; inlineEntries value n entries
      | '}' :: rest => do set rest; pure entries
      | _ => refuse

def inlineTable (value : Parser Value) : Parser Value := do
  blanks
  match ← ahead with
  | '}' :: rest => do set rest; pure (.table .inline [])
  | text => return .table .inline (← inlineEntries value text.length [])

/-- A value in which arrays and inline tables nest at most to the given depth. -/
def value : Nat → Parser Value
  | 0 => do
    match ← ahead with
    | '"' :: _ => return .string (← readQuoted)
    | '\'' :: _ => return .string (← readQuoted)
    | _ => scalar
  | depth + 1 => do
    match ← ahead with
    | '[' :: rest => do
      set rest
      return .array false (← items (value depth) (rest.length + 1))
    | '{' :: rest => do
      set rest
      inlineTable (value depth)
    | '"' :: _ => return .string (← readQuoted)
    | '\'' :: _ => return .string (← readQuoted)
    | _ => scalar

/-- The depth to which arrays and inline tables nest. -/
def maxDepth : Nat := 80

/-- A document so far: its table and the keys of the last header. -/
structure State where
  root : Entries
  header : List Key

def statement (s : State) : Parser State := do
  match ← ahead with
  | '[' :: '[' :: rest =>
    set rest
    blanks
    let name ← dottedKey
    blanks
    char ']'
    char ']'
    match s.root.gatherTable name with
    | some root => pure ⟨root, name⟩
    | none => refuse
  | '[' :: rest =>
    set rest
    blanks
    let name ← dottedKey
    blanks
    char ']'
    match s.root.openTable name with
    | some root => pure ⟨root, name⟩
    | none => refuse
  | _ =>
    let (name, meant) ← entry (value maxDepth)
    match s.root.defineUnder meant name s.header with
    | some root => pure { s with root := root }
    | none => refuse

/-- Reads the statements of a document, at most the given number of lines. -/
def statements : Nat → State → Parser State
  | 0, s => pure s
  | n + 1, s => do
    gap
    match ← ahead with
    | [] => pure s
    | _ =>
      let s ← statement s
      blanks
      comment
      lineEnd
      statements n s

end Parser

def dropByteOrderMark : List Char → List Char
  | '\ufeff' :: rest => rest
  | text => text

def parse (text : List Char) : Option Entries :=
  let text := dropByteOrderMark text
  match Parser.statements (text.length + 1) ⟨[], []⟩ text with
  | some (s, []) => some s.root
  | _ => none

end ReportMigration.Toml
