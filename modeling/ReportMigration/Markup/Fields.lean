import ReportMigration.Markup.Reader
import ReportMigration.Markup.Selector
import ReportMigration.Report.Change
import ReportMigration.Text.OsText
import ReportMigration.Text.Search

/-!
# Converting the fields of a document

`convertFields` runs a transform over the text of every selected element. The events of the
document are passed through as they are read; only the text of a selected element that holds
nothing but text and CDATA sections is replaced, and white space around that text stays. The
transform has a memory of its own, so that its calls and their order can be told.
-/

namespace ReportMigration.Markup

open Text Report

/-- What is wrong with a document as a whole. -/
inductive DocumentFault where
  | malformed (position : Nat) (fault : MarkupFault)
  | unclosedElement
deriving DecidableEq, Repr

def DocumentFault.message : DocumentFault → String
  | malformed position fault => s!"at byte {position}: {fault.message}"
  | unclosedElement => "unexpected end of document: unclosed element"

/-- A field that is left alone because its text cannot be decoded. -/
structure Skipped where
  field : List Char
  index : Nat
  reason : DecodeFault
deriving DecidableEq, Repr

/-- The warning about a field of the document at a path. -/
def Skipped.message (s : Skipped) (path : OsText) : String :=
  s!"⚠️ Skipping field {String.ofList s.field} #{s.index} in {path}: {s.reason.message}"

/-- Replaces the text of a field, with a memory from one call to the next. -/
abbrev Transform (σ : Type) := List Char → σ → List Char × σ

def Transform.ofPure (f : List Char → List Char) : Transform Unit :=
  fun text _ => (f text, ())

/-- A text event of white space only. -/
def isBlankText : Event → Bool
  | .text raw => raw.all isAsciiBlank
  | _ => false

/-- The parts of a field: blank texts, everything from the first to the last part that is not
blank, and blank texts. -/
structure Body where
  lead : List Event
  core : List Event
  trail : List Event

/-- Separates the blank texts at either end of a field. -/
def Body.ofParts (parts : List Event) : Body :=
  let rest := parts.dropWhile isBlankText
  ⟨parts.takeWhile isBlankText, (rest.reverse.dropWhile isBlankText).reverse,
    (rest.reverse.takeWhile isBlankText).reverse⟩

/-- The text that the parts of a field mean together. -/
def decodeParts : List Event → Except DecodeFault (List Char)
  | [] => .ok []
  | .text raw :: rest => do
    let meant ← decode raw
    (meant ++ ·) <$> decodeParts rest
  | .cdata raw :: rest => (raw ++ ·) <$> decodeParts rest
  | _ :: rest => decodeParts rest

def isCdata : Event → Bool
  | .cdata _ => true
  | _ => false

/-- Writes a text as a CDATA section, if it can be one and should be, or as escaped text. -/
def writeText (asCdata : Bool) (text : List Char) : Event :=
  if asCdata then .cdata text else .text (escape text)

/-- Puts a new text in the place of another one inside its surrounding white space. -/
def within (raw after : List Char) : List Char :=
  raw.takeWhile isBlank ++ after ++ (raw.reverse.takeWhile isBlank).reverse

/-- A selected element whose end is not reached: the selector that found it, its number, the
number of elements open inside and around it when it was opened, the parts read so far, and
whether it holds something else, so that its text stays as it is. -/
structure OpenField where
  field : List Char
  index : Nat
  depth : Nat
  parts : List Event
  mixed : Bool

/-- How far a document is converted. -/
structure Progress (σ : Type) where
  depth : Nat
  seen : Nat
  current : Option OpenField
  written : Array Event
  changes : Array Change
  skipped : Array Skipped
  memory : σ

namespace Progress

variable {σ : Type}

def initial (memory : σ) : Progress σ :=
  ⟨0, 0, none, #[], #[], #[], memory⟩

def emit (p : Progress σ) (event : Event) : Progress σ :=
  { p with written := p.written.push event }

def emitAll (p : Progress σ) (events : List Event) : Progress σ :=
  { p with written := p.written ++ events }

/-- Leaves the text of the current field as it is and writes what was held back. -/
def release (p : Progress σ) : Progress σ :=
  match p.current with
  | none => p
  | some f => { p.emitAll f.parts with current := some { f with parts := [], mixed := true } }

def settle (preferCdata : Bool) (transform : Transform σ) (p : Progress σ) (f : OpenField) :
    Progress σ :=
  let body := Body.ofParts f.parts
  let kept := p.emitAll f.parts
  match decodeParts body.core with
  | .error reason => { kept with skipped := p.skipped.push ⟨f.field, f.index, reason⟩ }
  | .ok raw =>
    let before := trim raw
    if before.isEmpty then kept
    else
      let (after, memory) := transform before p.memory
      if after = before then { kept with memory := memory }
      else
        let text := within raw after
        let cdata := (body.core.any isCdata || preferCdata) && !occursIn "]]>".toList text
        let written := p.emitAll (body.lead ++ [writeText cdata text] ++ body.trail)
        { written with
          changes := p.changes.push ⟨f.field, f.index, before, after, cdata⟩
          memory := memory }

/-- Opens a field if a selector selects the element. -/
def enter (selectors : List Selector) (tag : List Char) (p : Progress σ) : Progress σ :=
  match selectors.find? (·.selects tag) with
  | none => p
  | some s =>
    { p with current := some ⟨s.display, p.seen, p.depth, [], false⟩, seen := p.seen + 1 }

def step (selectors : List Selector) (preferCdata : Bool) (transform : Transform σ)
    (p : Progress σ) (event : Event) : Progress σ :=
  match event with
  | .opening tag =>
    let p := { p with depth := p.depth + 1 }
    let p := if p.current.isSome then p.release else p.enter selectors tag
    p.emit event
  | .closing _ =>
    let p := match p.current with
      | none => p
      | some f =>
        if f.depth = p.depth then { p.settle preferCdata transform f with current := none } else p
    { p.emit event with depth := p.depth - 1 }
  | .text _ | .cdata _ =>
    match p.current with
    | none => p.emit event
    | some f =>
      if f.mixed then p.emit event
      else { p with current := some { f with parts := f.parts ++ [event] } }
  | _ => p.release.emit event

end Progress

/-- A document after its conversion: its text and what was changed in it. -/
structure ConvertedDocument where
  content : List Char
  changes : List Change
deriving DecidableEq, Repr

/-- What a conversion leaves behind: the document or the fault that ended it, the fields that were
left alone, and the memory of the transform. -/
structure Conversion (σ : Type) where
  result : Except DocumentFault ConvertedDocument
  skipped : List Skipped
  memory : σ

def byteOrderMark : Char := '\ufeff'

def cutByteOrderMark : List Char → List Char × List Char
  | c :: rest => if c = byteOrderMark then ([c], rest) else ([], c :: rest)
  | [] => ([], [])

/-- Converts the selected fields of a document. One byte order mark at its start is kept; a second
one is not part of the document. A document without changes comes back as it is. -/
def convertFields {σ : Type} (selectors : List Selector) (preferCdata : Bool)
    (transform : Transform σ) (document : List Char) (memory : σ) : Conversion σ :=
  let (mark, marked) := cutByteOrderMark document
  let reading := read (cutByteOrderMark marked).2
  let last := reading.events.foldl (Progress.step selectors preferCdata transform)
    (Progress.initial memory)
  let result := match reading.fault with
    | some (position, fault) => .error (.malformed position fault)
    | none =>
      if last.depth ≠ 0 then .error .unclosedElement
      else if last.changes.isEmpty then .ok ⟨document, []⟩
      else .ok ⟨mark ++ Event.sourceAll last.written.toList, last.changes.toList⟩
  ⟨result, last.skipped.toList, last.memory⟩

end ReportMigration.Markup
