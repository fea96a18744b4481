import ReportMigration.Text.Blank
import ReportMigration.Text.Utf8

/-!
# Top-level commas

A comma is at the top level when it stands outside string literals and outside parentheses. A
closing parenthesis that closes nothing is passed over. `pieces` cuts a text at these commas; the
arguments of a call are the trimmed pieces.
-/

namespace ReportMigration.Sql.Arguments

open Text

/-- Puts text in front of the first piece. -/
def prepend (text : List Char) (cut : List Char × List (List Char)) :
    List Char × List (List Char) :=
  (text ++ cut.1, cut.2)

/-- Cuts a text at its top-level commas into a first piece and the others. The arguments before
the text say whether it starts inside a literal and how many parentheses are open. -/
def cut : Bool → Nat → List Char → List Char × List (List Char)
  | _, _, [] => ([], [])
  | true, depth, '\'' :: '\'' :: rest => prepend ['\'', '\''] (cut true depth rest)
  | true, depth, c :: rest => prepend [c] (cut (c != '\'') depth rest)
  | false, depth, c :: rest =>
    if c = '\'' then prepend [c] (cut true depth rest)
    else if c = '(' then prepend [c] (cut false (depth + 1) rest)
    else if c = ')' then prepend [c] (cut false (depth - 1) rest)
    else if c = ',' ∧ depth = 0 then ([], (cut false 0 rest).1 :: (cut false 0 rest).2)
    else prepend [c] (cut false depth rest)

/-- The pieces of a text between its top-level commas. -/
def pieces (text : List Char) : List (List Char) :=
  (cut false 0 text).1 :: (cut false 0 text).2

/-- The arguments that a text between parentheses lists. -/
def split (text : List Char) : List (List Char) :=
  (pieces text).map trim

/-- The commas in front of the given pieces, each with the end of the white space after it, as
byte positions. The pieces start with the comma at the given position. -/
def breaksFrom : Nat → List (List Char) → List (Nat × Nat)
  | _, [] => []
  | comma, piece :: rest =>
    (comma, comma + 1 + byteLength (piece.takeWhile isBlank))
      :: breaksFrom (comma + 1 + byteLength piece) rest

/-- The top-level commas of a text, each with the end of the white space after it, as byte
positions. -/
def breaks (text : List Char) : List (Nat × Nat) :=
  breaksFrom (byteLength (cut false 0 text).1) (cut false 0 text).2

end ReportMigration.Sql.Arguments
