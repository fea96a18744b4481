/-!
# Quoted texts

Texts between quotes, in which what cannot be seen is written in letters and digits.
-/

namespace ReportMigration.Text

def hexDigits (n : Nat) : List Char :=
  Nat.toDigits 16 n

/-- The ranges of characters that are not shown as they are: control characters, white space other
than the space, marks that change the direction or the form of other characters, and characters for
private use. -/
def hiddenRanges : List (Nat × Nat) :=
  [(0, 31), (127, 160), (173, 173), (768, 879), (1536, 1541), (1564, 1564), (1757, 1757),
    (1807, 1807), (5760, 5760), (6158, 6158), (6832, 6862), (7616, 7679), (8192, 8207),
    (8232, 8239), (8287, 8303), (8400, 8432), (12288, 12288), (57344, 63743), (65024, 65039),
    (65056, 65071), (65279, 65279), (65520, 65531), (917504, 1114111)]

def isHidden (c : Char) : Bool :=
  hiddenRanges.any fun (first, last) => first ≤ c.toNat && c.toNat ≤ last

def quoteChar (c : Char) : List Char :=
  if c = '\x00' then ['\\', '0']
  else if c = '\t' then ['\\', 't']
  else if c = '\n' then ['\\', 'n']
  else if c = '\r' then ['\\', 'r']
  else if c = '\\' then ['\\', '\\']
  else if c = '"' then ['\\', '"']
  else if isHidden c then "\\u\x7b".toList ++ hexDigits c.toNat ++ ['\x7d']
  else [c]

def quoteText (text : String) : String :=
  String.ofList ('"' :: text.toList.flatMap quoteChar ++ ['"'])

/-- Writes a path between quotes. Single quotes in it are marked as well. -/
def quotePath (path : String) : String :=
  let quoted (c : Char) : List Char := if c = '\'' then ['\\', '\''] else quoteChar c
  String.ofList ('"' :: path.toList.flatMap quoted ++ ['"'])

end ReportMigration.Text
