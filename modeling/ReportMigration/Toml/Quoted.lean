import ReportMigration.Toml.Scalar

/-!
# Quoted text

The four kinds of quoted text: basic with escapes and literal without, each on one line or on
several. Each reader starts after the opening quotes and answers the text and what follows the
closing quotes.
-/

namespace ReportMigration.Toml

/-- A character that text may hold as it is: a tab, or no control character. -/
def isPlain (c : Char) : Bool :=
  c == '\t' || (0x20 ≤ c.toNat && c.toNat != 0x7f)

/-- The character that a letter after a backslash means. -/
def escapeMeaning : Char → Option Char
  | 'b' => some '\x08'
  | 't' => some '\t'
  | 'n' => some '\n'
  | 'f' => some '\x0c'
  | 'r' => some '\r'
  | '"' => some '"'
  | '\\' => some '\\'
  | _ => none

def named (digits : List Char) : Option Char := do
  let code ← digits.foldlM (fun n c => (Text.digitValue 16 c).map (16 * n + ·)) 0
  if (Char.ofNat code).toNat = code then some (Char.ofNat code) else none

/-- Puts a character in front of the text that a reader answers. -/
def withChar (c : Option Char) (read : Option (List Char × List Char)) :
    Option (List Char × List Char) := do
  let c ← c
  let (text, rest) ← read
  some (c :: text, rest)

def readBasic : List Char → Option (List Char × List Char)
  | '"' :: rest => some ([], rest)
  | '\\' :: 'u' :: a :: b :: c :: d :: rest => withChar (named [a, b, c, d]) (readBasic rest)
  | '\\' :: 'U' :: a :: b :: c :: d :: e :: f :: g :: h :: rest =>
    withChar (named [a, b, c, d, e, f, g, h]) (readBasic rest)
  | '\\' :: c :: rest => withChar (escapeMeaning c) (readBasic rest)
  | c :: rest => if isPlain c then withChar (some c) (readBasic rest) else none
  | [] => none

def readLiteral : List Char → Option (List Char × List Char)
  | '\'' :: rest => some ([], rest)
  | c :: rest => if isPlain c then withChar (some c) (readLiteral rest) else none
  | [] => none

/-- Closes text of several lines after three quotes: up to two further quotes belong to the
text. -/
def closeQuotes (quote : Char) : List Char → List Char × List Char
  | [] => ([], [])
  | [c] => if c = quote then ([c], []) else ([], [c])
  | c :: d :: rest =>
    if c = quote then if d = quote then ([c, d], rest) else ([c], d :: rest)
    else ([], c :: d :: rest)

/-- Where text of several lines stands: in the text, after a backslash at the end of a line, or in
the white space that such a backslash drops. -/
inductive LineState where
  | inText
  | afterBackslash
  | dropping

def readBasicLines : LineState → List Char → Option (List Char × List Char)
  | .inText, '"' :: '"' :: '"' :: rest => some (closeQuotes '"' rest)
  | .inText, '\\' :: 'u' :: a :: b :: c :: d :: rest =>
    withChar (named [a, b, c, d]) (readBasicLines .inText rest)
  | .inText, '\\' :: 'U' :: a :: b :: c :: d :: e :: f :: g :: h :: rest =>
    withChar (named [a, b, c, d, e, f, g, h]) (readBasicLines .inText rest)
  | .inText, '\\' :: c :: rest =>
    if c = ' ' ∨ c = '\t' ∨ c = '\r' ∨ c = '\n' then readBasicLines .afterBackslash (c :: rest)
    else withChar (escapeMeaning c) (readBasicLines .inText rest)
  | .inText, '\r' :: '\n' :: rest => withChar (some '\n') (readBasicLines .inText rest)
  | .inText, c :: rest =>
    if isPlain c || c == '\n' then withChar (some c) (readBasicLines .inText rest) else none
  | .afterBackslash, '\r' :: '\n' :: rest => readBasicLines .dropping rest
  | .afterBackslash, c :: rest =>
    if c = '\n' then readBasicLines .dropping rest
    else if c = ' ' ∨ c = '\t' then readBasicLines .afterBackslash rest
    else none
  | .dropping, '\r' :: '\n' :: rest => readBasicLines .dropping rest
  | .dropping, '"' :: '"' :: '"' :: rest => some (closeQuotes '"' rest)
  | .dropping, c :: rest =>
    if c = ' ' ∨ c = '\t' ∨ c = '\n' then readBasicLines .dropping rest
    else readBasicLines .inText (c :: rest)
  | _, [] => none
termination_by state text => (text.length, match state with | .dropping => 1 | _ => 0)

def readLiteralLines : List Char → Option (List Char × List Char)
  | '\'' :: '\'' :: '\'' :: rest => some (closeQuotes '\'' rest)
  | '\r' :: '\n' :: rest => withChar (some '\n') (readLiteralLines rest)
  | c :: rest =>
    if isPlain c || c == '\n' then withChar (some c) (readLiteralLines rest) else none
  | [] => none

/-- The text without the line break that follows opening quotes. -/
def dropFirstBreak : List Char → List Char
  | '\n' :: rest => rest
  | '\r' :: '\n' :: rest => rest
  | text => text

def readQuoted : List Char → Option (List Char × List Char)
  | '"' :: '"' :: '"' :: rest => readBasicLines .inText (dropFirstBreak rest)
  | '\'' :: '\'' :: '\'' :: rest => readLiteralLines (dropFirstBreak rest)
  | '"' :: rest => readBasic rest
  | '\'' :: rest => readLiteral rest
  | _ => none

end ReportMigration.Toml
