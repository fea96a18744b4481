/-!
# TOML values

Values and tables, and how the parts of a document define them. A table remembers how it came
about, because that decides what may be added to it: a table stands under one header only, and a
table written inline or through dotted keys is never opened by a header.
-/

namespace ReportMigration.Toml

/-- How a table came about: as part of a longer header, through dotted keys, by a header of its
own, or written inline. -/
inductive Origin where
  | implied
  | dotted
  | header
  | inline
deriving DecidableEq, Repr

/-- A value. Numbers and dates keep their text. An array is either written as one or gathers the
tables under a doubled header. -/
inductive Value where
  | string (text : List Char)
  | boolean (value : Bool)
  | scalar (text : List Char)
  | array (gathered : Bool) (items : List Value)
  | table (origin : Origin) (entries : List (List Char × Value))
deriving Repr

abbrev Key := List Char

/-- The entries of a table in the order of their definition. -/
abbrev Entries := List (Key × Value)

namespace Entries

def get? (entries : Entries) (key : Key) : Option Value :=
  (entries.find? fun entry => entry.1 == key).map (·.2)

/-- Puts a value under a key, in the place of an earlier one if there is one. -/
def put (entries : Entries) (key : Key) (value : Value) : Entries :=
  if entries.any (·.1 == key) then
    entries.map fun entry => if entry.1 == key then (key, value) else entry
  else entries ++ [(key, value)]

/-- Whether dotted keys may lead through a table, the next key being the last or not. -/
def passable (origin : Origin) (last : Bool) : Bool :=
  match origin with
  | .dotted => true
  | .implied => !last
  | _ => false

/-- Defines a value under a dotted key. Nothing is defined twice. -/
def define (value : Value) : List Key → Entries → Option Entries
  | [], _ => none
  | [key], entries =>
    match entries.get? key with
    | some _ => none
    | none => some (entries.put key value)
  | key :: path, entries =>
    match entries.get? key with
    | none => (define value path []).map fun inner => entries.put key (.table .dotted inner)
    | some (.table origin inner) =>
      if passable origin (path.length == 1) then
        (define value path inner).map fun inner => entries.put key (.table origin inner)
      else none
    | some _ => none

/-- Applies a change to the entries of the table that a header's key leads through: the table
itself, or the last of the tables gathered there. -/
def through (change : Entries → Option Entries) : Value → Option Value
  | .table .inline _ => none
  | .table origin inner => (change inner).map (.table origin)
  | .array true items =>
    match items.getLast? with
    | some (.table origin inner) =>
      (change inner).map fun inner => .array true (items.dropLast ++ [.table origin inner])
    | _ => none
  | _ => none

def openTable : List Key → Entries → Option Entries
  | [], _ => none
  | [key], entries =>
    match entries.get? key with
    | none => some (entries.put key (.table .header []))
    | some (.table .implied inner) => some (entries.put key (.table .header inner))
    | some _ => none
  | key :: path, entries =>
    match entries.get? key with
    | none => (openTable path []).map fun inner => entries.put key (.table .implied inner)
    | some value => (through (openTable path) value).map (entries.put key)

/-- Opens a further table under a doubled header. -/
def gatherTable : List Key → Entries → Option Entries
  | [], _ => none
  | [key], entries =>
    match entries.get? key with
    | none => some (entries.put key (.array true [.table .header []]))
    | some (.array true items) =>
      some (entries.put key (.array true (items ++ [.table .header []])))
    | some _ => none
  | key :: path, entries =>
    match entries.get? key with
    | none => (gatherTable path []).map fun inner => entries.put key (.table .implied inner)
    | some value => (through (gatherTable path) value).map (entries.put key)

/-- Defines a value under a dotted key in the table of a header. -/
def defineUnder (value : Value) (key : List Key) : List Key → Entries → Option Entries
  | [], entries => define value key entries
  | outer :: path, entries =>
    match entries.get? outer with
    | none => none
    | some inner => (through (defineUnder value key path) inner).map (entries.put outer)

end Entries

end ReportMigration.Toml
