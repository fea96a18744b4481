import ReportMigration.Text.Blank
import ReportMigration.Text.CaseFold

/-!
# Scanners

A scanner reads a stretch of text at one place and says how many characters it read and what they
mean. `Scan.segments` lets a scanner loose on a whole text: it cuts the text from left to right
into the stretches the scanner reads and the single characters between them, and
`segments_text` says that nothing is lost on the way.
-/

namespace ReportMigration.Text

/-- A place in a text: the character before it, if there is one, and the text ahead. -/
structure Cursor where
  before : Option Char
  ahead : List Char

/-- The place a number of characters further on. -/
def Cursor.advance (c : Cursor) (n : Nat) : Cursor :=
  ⟨(c.ahead.take n).getLast?.or c.before, c.ahead.drop n⟩

/-- Reads the text at a place: the meaning of what was read and the number of its characters. -/
def Scan (α : Type) : Type :=
  Cursor → Option (α × Nat)

namespace Scan

variable {α β : Type}

protected def pure (a : α) : Scan α :=
  fun _ => some (a, 0)

/-- Reads on where the first scanner stopped. -/
protected def bind (p : Scan α) (next : α → Scan β) : Scan β := fun c =>
  (p c).bind fun (a, n) => (next a (c.advance n)).map fun (b, m) => (b, n + m)

instance : Monad Scan where
  pure := Scan.pure
  bind := Scan.bind

/-- Tries a second scanner where the first one fails. -/
def orElse (p q : Scan α) : Scan α := fun c =>
  (p c).or (q c)

/-- The text that a scanner reads, in place of its meaning. -/
def written (p : Scan α) : Scan (List Char) := fun c =>
  (p c).map fun (_, n) => (c.ahead.take n, n)

/-- Succeeds without reading when the place passes a test. -/
def guard (test : Cursor → Bool) : Scan Unit := fun c =>
  if test c then some ((), 0) else none

def one (test : Char → Bool) : Scan Unit := fun c =>
  match c.ahead with
  | x :: _ => if test x then some ((), 1) else none
  | [] => none

/-- The longest run of characters of a class, which may be empty. -/
def run (test : Char → Bool) : Scan Unit := fun c =>
  some ((), (c.ahead.takeWhile test).length)

/-- The longest run of characters of a class, at least one of them. -/
def run₁ (test : Char → Bool) : Scan Unit := fun c =>
  match (c.ahead.takeWhile test).length with
  | 0 => none
  | n + 1 => some ((), n + 1)

/-- White space, which may be absent. -/
def blanks : Scan Unit := run isBlank

/-- White space of at least one character. -/
def blanks₁ : Scan Unit := run₁ isBlank

def letters (w : List Char) : Scan Unit := fun c =>
  let read := c.ahead.take w.length
  if read.map foldCase == w.map foldCase then some ((), w.length) else none

def keyword (w : String) : Scan Unit := letters w.toList

/-- The first of several keywords that stands at the place. -/
def anyKeyword : List String → Scan Unit
  | [] => fun _ => none
  | w :: ws => (keyword w).orElse (anyKeyword ws)

/-- The place before the first character of the text. -/
def start : Scan Unit := guard fun c => c.before.isNone

/-- The place after the last character of the text. -/
def finish : Scan Unit := guard fun c => c.ahead.isEmpty

/-- A place with a word character on exactly one side. -/
def wordBoundary : Scan Unit := guard fun c =>
  c.before.any isWord != c.ahead.head?.any isWord

/-- A piece of a text cut by a scanner: a character that no hit covers, or a hit with the text
it covers and its meaning. -/
inductive Segment (α : Type) where
  | plain (c : Char)
  | hit (text : List Char) (meaning : α)

def Segment.text : Segment α → List Char
  | .plain c => [c]
  | .hit text _ => text

/-- Cuts a text, of which the given number of characters belong to the hit before it. -/
def segmentsFrom (p : Scan α) : Nat → Option Char → List Char → List (Segment α)
  | _, _, [] => []
  | covered + 1, _, x :: rest => segmentsFrom p covered (some x) rest
  | 0, before, x :: rest =>
    match p ⟨before, x :: rest⟩ with
    | some (a, n + 1) => .hit ((x :: rest).take (n + 1)) a :: segmentsFrom p n (some x) rest
    | _ => .plain x :: segmentsFrom p 0 (some x) rest

/-- Cuts a text at the places where a scanner reads something, from left to right and without
overlap. -/
def segments (p : Scan α) (text : List Char) : List (Segment α) :=
  segmentsFrom p 0 none text

def Segment.isHit : Segment α → Bool
  | .plain _ => false
  | .hit _ _ => true

/-- The text of a segment, where a hit means the text that takes its place. -/
def Segment.replaced : Segment (List Char) → List Char
  | .plain c => [c]
  | .hit _ replacement => replacement

/-- Whether a scanner reads something anywhere in a text. -/
def occurs (p : Scan α) (text : List Char) : Bool :=
  (segments p text).any Segment.isHit

/-- Puts its meaning in the place of everything that a scanner reads. -/
def substitute (p : Scan (List Char)) (text : List Char) : List Char :=
  (segments p text).flatMap Segment.replaced

theorem segmentsFrom_text (p : Scan α) (covered : Nat) (before : Option Char)
    (text : List Char) :
    (segmentsFrom p covered before text).flatMap Segment.text = text.drop covered := by
  fun_induction segmentsFrom p covered before text with
  | case1 => simp
  | case2 _ _ _ _ ih => simpa using ih
  | case3 _ _ _ _ _ _ ih => simp [Segment.text, ih]
  | case4 _ _ _ _ ih => simp [Segment.text, ih]

theorem segments_text (p : Scan α) (text : List Char) :
    (segments p text).flatMap Segment.text = text := by
  simp [segments, segmentsFrom_text]

end Scan

end ReportMigration.Text
