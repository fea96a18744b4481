/-!
# Texts of the operating system

A file system keeps names as bytes. Most names are texts in UTF-8, but nothing makes them so.
-/

namespace ReportMigration

/-- The bytes of a name or of a path. -/
structure OsText where
  bytes : List UInt8
deriving DecidableEq, Repr

namespace OsText

def ofText (text : String) : OsText :=
  ⟨text.toUTF8.data.toList⟩

instance : Coe String OsText := ⟨ofText⟩

instance : Append OsText := ⟨fun front back => ⟨front.bytes ++ back.bytes⟩⟩

instance : LT OsText := ⟨fun name other => name.bytes < other.bytes⟩

instance (name other : OsText) : Decidable (name < other) :=
  inferInstanceAs (Decidable (name.bytes < other.bytes))

def isEmpty (name : OsText) : Bool :=
  name.bytes.isEmpty

def toText? (name : OsText) : Option String :=
  String.fromUTF8? ⟨name.bytes.toArray⟩

/-- What may follow the first byte of a character of several bytes: the least and the greatest byte
at each place. -/
def following (first : UInt8) : List (UInt8 × UInt8) :=
  let any : UInt8 × UInt8 := (0x80, 0xbf)
  if first < 0xc2 then []
  else if first < 0xe0 then [any]
  else if first = 0xe0 then [(0xa0, 0xbf), any]
  else if first = 0xed then [(0x80, 0x9f), any]
  else if first < 0xf0 then [any, any]
  else if first = 0xf0 then [(0x90, 0xbf), any, any]
  else if first < 0xf4 then [any, any, any]
  else if first = 0xf4 then [(0x80, 0x8f), any, any]
  else []

/-- A character that is begun: the number of which its bytes so far are the first digits, and the
bytes that may go on, next and later. -/
structure Begun where
  value : Nat
  next : UInt8 × UInt8
  later : List (UInt8 × UInt8)

def replacement : Char := '\uFFFD'

def begin (byte : UInt8) : List Char × Option Begun :=
  if byte < 0x80 then ([Char.ofNat byte.toNat], none)
  else match following byte with
    | [] => ([replacement], none)
    | next :: later => ([], some ⟨byte.toNat % (0x20 >>> later.length), next, later⟩)

/-- Goes on with a byte. A character that is begun and does not go on is replaced. -/
def goOn (byte : UInt8) : Option Begun → List Char × Option Begun
  | none => begin byte
  | some ⟨value, next, later⟩ =>
    if next.1 ≤ byte ∧ byte ≤ next.2 then
      let longer := 64 * value + byte.toNat % 64
      match later with
      | [] => ([Char.ofNat longer], none)
      | next :: later => ([], some ⟨longer, next, later⟩)
    else
      let (found, begun) := begin byte
      (replacement :: found, begun)

def characters : Option Begun → List UInt8 → List Char
  | none, [] => []
  | some _, [] => [replacement]
  | begun, byte :: rest =>
    let (found, begun) := goOn byte begun
    found ++ characters begun rest

/-- The name as it is shown, with replacement characters where it is no text. -/
def display (name : OsText) : String :=
  match name.toText? with
  | some text => text
  | none => String.ofList (characters none name.bytes)

instance : ToString OsText := ⟨display⟩

end OsText

end ReportMigration
