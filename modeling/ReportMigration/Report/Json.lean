/-!
# JSON

Values of JSON as far as a summary needs them, and their written form over several lines.
-/

namespace ReportMigration.Report

/-- A value of JSON. All numbers are whole. -/
inductive Json where
  | null
  | bool (value : Bool)
  | number (value : Int)
  | string (value : List Char)
  | list (items : List Json)
  | object (fields : List (String × Json))
deriving Repr, Inhabited

namespace Json

def text (s : String) : Json := string s.toList

def count (n : Nat) : Json := number n

def optional {α : Type} (encode : α → Json) : Option α → Json
  | none => null
  | some a => encode a

def hexDigit (n : Nat) : Char :=
  if n < 10 then Char.ofNat (48 + n) else Char.ofNat (87 + n)

/-- Writes a character inside a text. Only quotes, backslashes and control characters below the
space are not written as they are. -/
def escape (c : Char) : List Char :=
  if c = '"' then ['\\', '"']
  else if c = '\\' then ['\\', '\\']
  else if c = '\x08' then ['\\', 'b']
  else if c = '\t' then ['\\', 't']
  else if c = '\n' then ['\\', 'n']
  else if c = '\x0c' then ['\\', 'f']
  else if c = '\r' then ['\\', 'r']
  else if c.toNat < 32 then
    ['\\', 'u', '0', '0', hexDigit (c.toNat / 16), hexDigit (c.toNat % 16)]
  else [c]

def quote (text : List Char) : List Char :=
  '"' :: text.flatMap escape ++ ['"']

def newLine (depth : Nat) : List Char :=
  '\n' :: List.replicate (2 * depth) ' '

mutual

/-- Writes a value over several lines, as the content of a value at a depth. -/
def pretty (depth : Nat) : Json → List Char
  | null => "null".toList
  | bool true => "true".toList
  | bool false => "false".toList
  | number n => (toString n).toList
  | string s => quote s
  | list [] => "[]".toList
  | list (item :: rest) =>
    '[' :: newLine (depth + 1) ++ pretty (depth + 1) item ++ prettyItems (depth + 1) rest ++
      newLine depth ++ [']']
  | object [] => ['\x7b', '\x7d']
  | object ((key, value) :: rest) =>
    '\x7b' :: newLine (depth + 1) ++ quote key.toList ++ ": ".toList ++ pretty (depth + 1) value ++
      prettyFields (depth + 1) rest ++ newLine depth ++ ['\x7d']

/-- Writes the items of a list after the first one. -/
def prettyItems (depth : Nat) : List Json → List Char
  | [] => []
  | item :: rest => ',' :: newLine depth ++ pretty depth item ++ prettyItems depth rest

/-- Writes the fields of an object after the first one. -/
def prettyFields (depth : Nat) : List (String × Json) → List Char
  | [] => []
  | (key, value) :: rest =>
    ',' :: newLine depth ++ quote key.toList ++ ": ".toList ++ pretty depth value ++
      prettyFields depth rest

end

def display (value : Json) : String :=
  String.ofList (value.pretty 0)

def field? (value : Json) (key : String) : Option Json :=
  match value with
  | object fields => fields.lookup key
  | _ => none

end Json

end ReportMigration.Report
