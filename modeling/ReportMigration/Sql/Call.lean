import ReportMigration.Sql.Arguments
import ReportMigration.Text.Scan

/-!
# Call rules

A call rule replaces the calls of one function. The text is read once from left to right; a call
is settled when its closing parenthesis is reached, so calls among its arguments are settled
before it. String literals are copied as they are, and nothing inside them opens or closes a
call.
-/

namespace ReportMigration.Sql

open Text

/-- Replaces the calls of a function. The transform sees the trimmed arguments of a call and
answers what stands in its place, or nothing to leave the call as it is written. -/
structure CallRule where
  name : String
  function : List Char
  transform : List (List Char) → Option (List Char)

namespace CallRule

/-- The function's name at a word boundary, white space and an opening parenthesis. -/
def opener (function : List Char) : Scan Unit := do
  Scan.wordBoundary
  Scan.letters function
  Scan.blanks
  Scan.one (· == '(')

/-- An open parenthesis: what is written before it, last character first, and the text that opens
the call. A parenthesis that belongs to no call has no such text. -/
structure Frame where
  before : List Char
  opener : Option (List Char)

/-- How far a text is settled: the open parentheses from the innermost outwards, what is written
inside the innermost one, last character first, whether the place is inside a literal, and
whether a call was replaced. -/
structure State where
  frames : List Frame
  written : List Char
  quoted : Bool
  replaced : Bool

def State.copy (s : State) (c : Char) : State :=
  { s with written := c :: s.written }

def State.push (s : State) (opener : Option (List Char)) : State :=
  { s with frames := ⟨s.written, opener⟩ :: s.frames, written := [] }

/-- What an open parenthesis and the text inside it look like when they stay as written, last
character first. -/
def Frame.keep (f : Frame) (inside : List Char) : List Char :=
  inside ++ (f.opener.getD ['(']).reverse ++ f.before

/-- Closes the innermost parenthesis and settles the call that it closes. -/
def close (rule : CallRule) (s : State) : State :=
  match s.frames with
  | [] => s.copy ')'
  | f :: frames =>
    let replacement := match f.opener with
      | some _ => rule.transform (Arguments.split s.written.reverse)
      | none => none
    match replacement with
    | some text =>
      { s with frames := frames, written := text.reverse ++ f.before, replaced := true }
    | none => { s with frames := frames, written := ')' :: f.keep s.written }

def readChar (rule : CallRule) (s : State) (c : Char) : State :=
  if c = '\'' then { s.copy c with quoted := !s.quoted }
  else if s.quoted then s.copy c
  else if c = '(' then s.push none
  else if c = ')' then rule.close s
  else s.copy c

/-- Reads a segment of the text. An opener inside a literal is ordinary text. -/
def read (rule : CallRule) (s : State) : Scan.Segment Unit → State
  | .plain c => rule.readChar s c
  | .hit text _ => if s.quoted then text.foldl rule.readChar s else s.push (some text)

/-- The state after the whole text. -/
def run (rule : CallRule) (text : List Char) : State :=
  ((opener rule.function).segments text).foldl rule.read ⟨[], [], false, false⟩

/-- What is written at the end, where parentheses still open stay as they are. -/
def State.text (s : State) : List Char :=
  (s.frames.foldl (fun inside f => f.keep inside) s.written).reverse

/-- The text after the rule, if it replaced a call. -/
def apply (rule : CallRule) (text : List Char) : Option (List Char) :=
  let s := rule.run text
  if s.replaced then some s.text else none

end CallRule

end ReportMigration.Sql
