import ReportMigration.Sql.Arguments
import ReportMigration.Text.Scan

/-!
# Layout

Lays out a statement with one major clause per line, one item of a select list per line, and a
new line before each `AND` and `OR`. Only white space changes.
-/

namespace ReportMigration.Sql.Layout

open Text

/-- The line break and indentation in front of list items and connectives. -/
def indent : List Char := "\n    ".toList

def clauseKeyword : Scan Unit :=
  [ Scan.keyword "SELECT", Scan.keyword "FROM", Scan.keyword "WHERE",
    (do Scan.keyword "GROUP"; Scan.blanks₁; Scan.keyword "BY"),
    Scan.keyword "HAVING",
    (do Scan.keyword "ORDER"; Scan.blanks₁; Scan.keyword "BY"),
    (do Scan.keyword "UNION"; Scan.blanks₁; Scan.keyword "ALL"),
    Scan.keyword "UNION", Scan.keyword "EXCEPT", Scan.keyword "INTERSECT" ].foldr
    (fun word others => Scan.orElse (do word; Scan.wordBoundary) others)
    (fun _ => none)

/-- The words that begin a clause, at the start of the text or after white space, which is read
with them. The meaning is the words as they are written. -/
def clauseStart : Scan (List Char) :=
  Scan.orElse
    (do Scan.start; Scan.written clauseKeyword)
    (do Scan.blanks₁; Scan.written clauseKeyword)

/-- A major clause: its words and the text up to the next clause. -/
structure Clause where
  words : List Char
  body : List Char

/-- Cuts a text into what stands before the first clause and the clauses. -/
def clausesOf : List (Scan.Segment (List Char)) → List Char × List Clause
  | [] => ([], [])
  | .plain c :: rest => (c :: (clausesOf rest).1, (clausesOf rest).2)
  | .hit _ words :: rest => ([], ⟨words, (clausesOf rest).1⟩ :: (clausesOf rest).2)

/-- The quantifier of a select list with the white space before it. -/
def quantifier : Scan Unit := do
  Scan.blanks₁
  Scan.anyKeyword ["DISTINCT", "ALL"]
  Scan.wordBoundary

/-- Cuts the body of a select clause after its quantifier. -/
def cutQuantifier (body : List Char) : List Char × List Char :=
  match quantifier ⟨none, body⟩ with
  | some (_, n) => (body.take n, body.drop n)
  | none => ([], body)

/-- Puts every item of a select list on a line of its own. A quantifier stays on the line of its
clause, and a list that follows without white space starts there too. -/
def reflow (body : List Char) : List Char :=
  let (head, rest) := cutQuantifier body
  let columns := trimStart rest
  let lead := if columns.length < rest.length then indent else []
  let items := Arguments.cut false 0 columns
  head ++ lead ++ items.1 ++ items.2.flatMap fun item => ',' :: indent ++ trimStart item

/-- The text of a clause with its select list, if it has one, on lines of its own. -/
def Clause.text (clause : Clause) : List Char :=
  if equalIgnoringAsciiCase clause.words "SELECT".toList then clause.words ++ reflow clause.body
  else clause.words ++ clause.body

def onNewLines (clauses : List Clause) : List Char :=
  clauses.flatMap fun clause => '\n' :: clause.text

/-- Starts every major clause on its own line. One with nothing before it is on a line already. -/
def breakClauses (sql : List Char) : List Char :=
  match clausesOf (clauseStart.segments sql) with
  | ([], first :: rest) => first.text ++ onNewLines rest
  | (lead, clauses) => lead ++ onNewLines clauses

/-- A connective between white space. The meaning is the connective on a line of its own. -/
def connective : Scan (List Char) := do
  Scan.blanks₁
  let word ← Scan.written (Scan.anyKeyword ["AND", "OR"])
  Scan.blanks₁
  pure (indent ++ word ++ [' '])

def lineBreak : Scan Unit := do
  Scan.run fun c => c == ' ' || c == '\t'
  Scan.orElse (Scan.one (· == '\r')) (pure ())
  Scan.one (· == '\n')

/-- As many line breaks as follow each other, but no more than a given number: their count. -/
def lineBreaks : Nat → Scan Nat
  | 0 => pure 0
  | most + 1 => Scan.orElse (do lineBreak; (· + 1) <$> lineBreaks most) (pure 0)

def isBreakChar (c : Char) : Bool :=
  c == ' ' || c == '\t' || c == '\r' || c == '\n'

/-- Three line breaks or more in a row. The meaning is two. There are no more of them than
characters that they may hold. -/
def blankRun : Scan (List Char) := fun c =>
  match lineBreaks (c.ahead.takeWhile isBreakChar).length c with
  | some (count, n) => if 3 ≤ count then some (['\n', '\n'], n) else none
  | none => none

def layOut (sql : List Char) : List Char :=
  trim (blankRun.substitute (connective.substitute (breakClauses sql)))

end ReportMigration.Sql.Layout
