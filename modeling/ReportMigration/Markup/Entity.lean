import ReportMigration.Text.Classes
import ReportMigration.Text.Utf8

/-!
# Character references and entities

The text of an element and the value of an attribute may spell characters as `&lt;`, `&#65;` or
`&#x41;`. `decode` reads such a text; `escape` writes a text so that its markup characters are
spelled out.
-/

namespace ReportMigration.Markup

open Text

/-- Why a numeric character reference means no character. -/
inductive ReferenceFault where
  | sign
  | empty
  | digit
  | tooLarge
  | null
  | noCharacter (code : Nat)
deriving DecidableEq, Repr

/-- Why a text cannot be decoded. Positions count bytes from the start of the text. -/
inductive DecodeFault where
  | unterminated (start : Nat) (length : Nat)
  | unknown (start : Nat) (stop : Nat) (name : List Char)
  | reference (fault : ReferenceFault)
deriving DecidableEq, Repr

def ReferenceFault.message : ReferenceFault → String
  | sign => "unexpected number sign"
  | empty => "cannot parse integer from empty string"
  | digit => "invalid digit found in string"
  | tooLarge => "number too large to fit in target type"
  | null => "0x0 character is not permitted in XML"
  | noCharacter code => s!"`{code}` is not a valid codepoint"

def DecodeFault.message : DecodeFault → String
  | unterminated start length =>
    s!"Error while escaping character at range {start}..{length}: Cannot find ';' after '&'"
  | unknown start stop name =>
    s!"at {start}..{stop}: unrecognized entity `{String.ofList name}`"
  | reference fault => s!"invalid character reference: {fault.message}"

/-- Reads the digits of a number that fits 32 bits, after the number read so far. -/
def readDigits (base : Nat) : Nat → List Char → Except ReferenceFault Nat
  | n, [] => .ok n
  | n, c :: rest =>
    match digitValue base c with
    | none => .error .digit
    | some d => if n * base + d < 2 ^ 32 then readDigits base (n * base + d) rest else .error .tooLarge

def readNumber (base : Nat) : List Char → Except ReferenceFault Nat
  | [] => .error .empty
  | c :: rest =>
    if c = '+' ∨ c = '-' then .error .sign else readDigits base 0 (c :: rest)

/-- The character that a numeric reference means, given what follows its number sign. -/
def numericReference (spec : List Char) : Except ReferenceFault Char := do
  let code ← match spec with
    | 'x' :: hex => readNumber 16 hex
    | decimal => readNumber 10 decimal
  if code = 0 then .error .null
  else if (Char.ofNat code).toNat = code then .ok (Char.ofNat code)
  else .error (.noCharacter code)

def namedEntity : List Char → Option Char
  | ['l', 't'] => some '<'
  | ['g', 't'] => some '>'
  | ['a', 'm', 'p'] => some '&'
  | ['a', 'p', 'o', 's'] => some '\''
  | ['q', 'u', 'o', 't'] => some '"'
  | _ => none

/-- The character that a reference means, given its start and what stands between its ampersand
and its semicolon. -/
def referenced (start : Nat) (spec : List Char) : Except DecodeFault Char :=
  match spec with
  | '#' :: number => (numericReference number).mapError .reference
  | name =>
    match namedEntity name with
    | some c => .ok c
    | none => .error (.unknown (start + 1) (start + 1 + byteLength name) name)

/-- Decodes the rest of a text of the given length from a position on. Inside a reference the
position of its ampersand and what follows it, last character first, are known. -/
def decodeFrom (length : Nat) :
    Nat → Option (Nat × List Char) → List Char → Except DecodeFault (List Char)
  | _, none, [] => .ok []
  | _, some (start, _), [] => .error (.unterminated start length)
  | position, none, c :: rest =>
    if c = '&' then decodeFrom length (position + 1) (some (position, [])) rest
    else (c :: ·) <$> decodeFrom length (position + c.utf8Size) none rest
  | position, some (start, spec), c :: rest =>
    if c = '&' then .error (.unterminated start length)
    else if c = ';' then do
      let meant ← referenced start spec.reverse
      (meant :: ·) <$> decodeFrom length (position + 1) none rest
    else decodeFrom length (position + c.utf8Size) (some (start, c :: spec)) rest

/-- The text that a text with references means. -/
def decode (text : List Char) : Except DecodeFault (List Char) :=
  decodeFrom (byteLength text) 0 none text

def escapeChar : Char → List Char
  | '<' => "&lt;".toList
  | '>' => "&gt;".toList
  | '&' => "&amp;".toList
  | c => [c]

/-- A text as it is written inside an element. -/
def escape (text : List Char) : List Char :=
  text.flatMap escapeChar

end ReportMigration.Markup
