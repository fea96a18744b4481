import ReportMigration.Markup.Event

/-!
# Reading documents

Cuts a document into its events. Reading ends at the first fault; `Reading` holds the events before
it and, with a fault, the number of bytes read by then. That elements are closed in order is
checked here, that every element is closed is not.
-/

namespace ReportMigration.Markup

open Text

/-- What is wrong with a document at one place. -/
inductive MarkupFault where
  | unknownMarkup
  | unclosedInstruction
  | unclosedComment
  | unclosedDoctype
  | unclosedCdata
  | unclosedTag
  | namelessDoctype
  | unmatchedEnd (name : List Char)
  | mismatchedEnd (expected : List Char) (found : List Char)
deriving DecidableEq, Repr

namespace MarkupFault

def message : MarkupFault → String
  | unknownMarkup => "syntax error: unknown or missed symbol in markup"
  | unclosedInstruction =>
    "syntax error: processing instruction or xml declaration not closed: `?>` not found before "
      ++ "end of input"
  | unclosedComment => "syntax error: comment not closed: `-->` not found before end of input"
  | unclosedDoctype => "syntax error: DOCTYPE not closed: `>` not found before end of input"
  | unclosedCdata => "syntax error: CDATA not closed: `]]>` not found before end of input"
  | unclosedTag => "syntax error: tag not closed: `>` not found before end of input"
  | namelessDoctype =>
    "ill-formed document: `<!DOCTYPE>` declaration does not contain a name of a document type"
  | unmatchedEnd name =>
    s!"ill-formed document: close tag `</{String.ofList name}>` does not match any open tag"
  | mismatchedEnd expected found =>
    s!"ill-formed document: expected `</{String.ofList expected}>`, but "
      ++ s!"`</{String.ofList found}>` was found"

end MarkupFault

/-- Cuts a text around the first occurrence of a marker. -/
def cutAt (marker : List Char) : List Char → Option (List Char × List Char)
  | [] => none
  | c :: rest =>
    if marker.isPrefixOf (c :: rest) then some ([], (c :: rest).drop marker.length)
    else (cutAt marker rest).map fun (before, after) => (c :: before, after)

/-- Cuts a text around the first closing angle bracket outside quotes, given the quote that is
open at its start. -/
def cutTag : Option Char → List Char → Option (List Char × List Char)
  | _, [] => none
  | none, c :: rest =>
    if c = '>' then some ([], rest)
    else
      (cutTag (if c = '"' ∨ c = '\'' then some c else none) rest).map
        fun (before, after) => (c :: before, after)
  | some quote, c :: rest =>
    (cutTag (if c = quote then none else some quote) rest).map
      fun (before, after) => (c :: before, after)

/-- Cuts a text around the closing angle bracket that balances the given number of opening ones. -/
def cutBalanced : Nat → List Char → Option (List Char × List Char)
  | _, [] => none
  | depth, c :: rest =>
    if c = '>' ∧ depth = 0 then some ([], rest)
    else
      (cutBalanced (if c = '<' then depth + 1 else if c = '>' then depth - 1 else depth) rest).map
        fun (before, after) => (c :: before, after)

/-- What stands at a place: an event or a fault, and the text after what was read. -/
abbrev Step := Except MarkupFault Event × List Char

/-- A text without the white space it ends with, unless it is all white space. -/
def trimName (content : List Char) : List Char :=
  match content.reverse.dropWhile isTagBlank with
  | [] => content
  | kept => kept.reverse

/-- Reads an end tag after its slash. -/
def readClosing (text : List Char) : Step :=
  match cutTag none text with
  | none => (.error .unclosedTag, [])
  | some (content, rest) => (.ok (.closing (trimName content)), rest)

/-- Reads a start tag or the tag of an empty element after its opening bracket. -/
def readOpening (text : List Char) : Step :=
  match cutTag none text with
  | none => (.error .unclosedTag, [])
  | some (content, rest) =>
    if content.getLast? = some '/' then (.ok (.empty content.dropLast), rest)
    else (.ok (.opening content), rest)

/-- Reads an instruction or the declaration of the document after its question mark, which does not
close it. -/
def readInstruction (text : List Char) : Step :=
  if text.head? = some '>' then (.error .unclosedInstruction, text.tail)
  else
    match cutAt "?>".toList text with
    | none => (.error .unclosedInstruction, [])
    | some (content, rest) =>
      if tagName content = "xml".toList then (.ok (.declaration content), rest)
      else (.ok (.instruction content), rest)

def readComment (text : List Char) : Step :=
  match cutAt "-->".toList (text.drop 2) with
  | none => (.error .unclosedComment, [])
  | some (content, rest) =>
    if "--".toList.isPrefixOf text then (.ok (.comment content), rest)
    else (.error .unclosedComment, rest)

/-- Reads a CDATA section after its exclamation mark. -/
def readCdata (text : List Char) : Step :=
  match cutAt "]]>".toList text with
  | none => (.error .unclosedCdata, [])
  | some (content, rest) =>
    if "[CDATA[".toList.isPrefixOf content then (.ok (.cdata (content.drop 7)), rest)
    else (.error .unclosedCdata, rest)

/-- Reads a document type after its exclamation mark. -/
def readDoctype (text : List Char) : Step :=
  match cutBalanced 0 text with
  | none => (.error .unclosedDoctype, [])
  | some (content, rest) =>
    if !equalIgnoringAsciiCase (content.take 7) "DOCTYPE".toList then
      (.error .unclosedDoctype, rest)
    else
      match (content.drop 7).dropWhile isTagBlank with
      | [] => (.error .namelessDoctype, rest)
      | name => (.ok (.doctype name), rest)

/-- Reads markup after its opening angle bracket. -/
def readMarkup : List Char → Step
  | [] => (.error .unclosedTag, [])
  | '!' :: '[' :: rest => readCdata ('[' :: rest)
  | '!' :: '-' :: rest => readComment ('-' :: rest)
  | '!' :: 'D' :: rest => readDoctype ('D' :: rest)
  | '!' :: 'd' :: rest => readDoctype ('d' :: rest)
  | '!' :: rest => (.error .unknownMarkup, '!' :: rest)
  | '/' :: rest => readClosing rest
  | '?' :: rest => readInstruction rest
  | text => readOpening text

def readEvent : List Char → Step
  | '<' :: rest => readMarkup rest
  | text => (.ok (.text (text.takeWhile (· != '<'))), text.dropWhile (· != '<'))

theorem cutAt_length_le {marker text before after : List Char}
    (h : cutAt marker text = some (before, after)) : after.length ≤ text.length := by
  induction text generalizing before with
  | nil => simp [cutAt] at h
  | cons c rest ih =>
    simp only [cutAt] at h
    split at h
    · simp only [Option.some.injEq, Prod.mk.injEq] at h
      rw [← h.2, List.length_drop]
      omega
    · simp only [Option.map_eq_some_iff, Prod.mk.injEq, Prod.exists] at h
      obtain ⟨b, a, hb, -, rfl⟩ := h
      have := ih hb
      simp only [List.length_cons]
      omega

theorem cutTag_length_lt {quote : Option Char} {text before after : List Char}
    (h : cutTag quote text = some (before, after)) : after.length < text.length := by
  induction text generalizing before quote with
  | nil => simp [cutTag] at h
  | cons c rest ih =>
    cases quote with
    | none =>
      simp only [cutTag] at h
      split at h
      · simp only [Option.some.injEq, Prod.mk.injEq] at h
        simp [← h.2]
      · simp only [Option.map_eq_some_iff, Prod.mk.injEq, Prod.exists] at h
        obtain ⟨b, a, hb, -, rfl⟩ := h
        have := ih hb
        simp only [List.length_cons]
        omega
    | some quote =>
      simp only [cutTag, Option.map_eq_some_iff, Prod.mk.injEq, Prod.exists] at h
      obtain ⟨b, a, hb, -, rfl⟩ := h
      have := ih hb
      simp only [List.length_cons]
      omega

theorem cutBalanced_length_lt {depth : Nat} {text before after : List Char}
    (h : cutBalanced depth text = some (before, after)) : after.length < text.length := by
  induction text generalizing before depth with
  | nil => simp [cutBalanced] at h
  | cons c rest ih =>
    simp only [cutBalanced] at h
    split at h
    · simp only [Option.some.injEq, Prod.mk.injEq] at h
      simp [← h.2]
    · simp only [Option.map_eq_some_iff, Prod.mk.injEq, Prod.exists] at h
      obtain ⟨b, a, hb, -, rfl⟩ := h
      have := ih hb
      simp only [List.length_cons]
      omega

private theorem readClosing_length_le (text : List Char) :
    (readClosing text).2.length ≤ text.length := by
  unfold readClosing
  split
  · simp
  · next h => exact Nat.le_of_lt (cutTag_length_lt h)

private theorem readOpening_length_le (text : List Char) :
    (readOpening text).2.length ≤ text.length := by
  unfold readOpening
  split
  · simp
  · next h =>
    have := cutTag_length_lt h
    split <;> (dsimp only; omega)

private theorem readInstruction_length_le (text : List Char) :
    (readInstruction text).2.length ≤ text.length := by
  unfold readInstruction
  split
  · simp
  · split
    · simp
    · next h =>
      have := cutAt_length_le h
      split <;> (dsimp only; omega)

private theorem readComment_length_le (text : List Char) :
    (readComment text).2.length ≤ text.length := by
  unfold readComment
  split
  · simp
  · next h =>
    have := cutAt_length_le h
    rw [List.length_drop] at this
    split <;> (dsimp only; omega)

private theorem readCdata_length_le (text : List Char) :
    (readCdata text).2.length ≤ text.length := by
  unfold readCdata
  split
  · simp
  · next h =>
    have := cutAt_length_le h
    split <;> (dsimp only; omega)

private theorem readDoctype_length_le (text : List Char) :
    (readDoctype text).2.length ≤ text.length := by
  unfold readDoctype
  split
  · simp
  · next h =>
    have := cutBalanced_length_lt h
    split
    · dsimp only; omega
    · split <;> (dsimp only; omega)

theorem readMarkup_length_le (text : List Char) : (readMarkup text).2.length ≤ text.length := by
  unfold readMarkup
  split
  · simp
  · next rest => have := readCdata_length_le ('[' :: rest); simp_all; omega
  · next rest => have := readComment_length_le ('-' :: rest); simp_all; omega
  · next rest => have := readDoctype_length_le ('D' :: rest); simp_all; omega
  · next rest => have := readDoctype_length_le ('d' :: rest); simp_all; omega
  · simp
  · next rest => have := readClosing_length_le rest; simp_all; omega
  · next rest => have := readInstruction_length_le rest; simp_all; omega
  · exact readOpening_length_le _

theorem readEvent_length_lt {text : List Char} (h : text ≠ []) :
    (readEvent text).2.length < text.length := by
  match text, h with
  | c :: rest, _ =>
    unfold readEvent
    split
    · next rest' heq =>
      simp only [List.cons.injEq] at heq
      have := readMarkup_length_le rest'
      simp only [List.length_cons, heq.2]
      omega
    · next hne =>
      have hc : (c != '<') = true := by
        simp only [bne_iff_ne, ne_eq]
        rintro rfl
        exact hne rest rfl
      have := (List.dropWhile_sublist (p := fun x : Char => x != '<') (l := rest)).length_le
      simp only [List.dropWhile_cons, hc, if_true, List.length_cons]
      omega

/-- The events of a document up to its end or its first fault, and that fault with the number of
bytes read by then. -/
structure Reading where
  events : List Event
  fault : Option (Nat × MarkupFault)
deriving DecidableEq, Repr

def Reading.cons (event : Event) (r : Reading) : Reading :=
  ⟨event :: r.events, r.fault⟩

/-- The elements open after an event, innermost first, or the fault of an end tag that closes none
of them or not the innermost. -/
def nest (names : List (List Char)) : Event → Except MarkupFault (List (List Char))
  | .opening tag => .ok (tagName tag :: names)
  | .closing name =>
    match names with
    | [] => .error (.unmatchedEnd name)
    | expected :: outer =>
      if name = expected then .ok outer else .error (.mismatchedEnd expected name)
  | _ => .ok names

/-- Reads the rest of a document of the given number of bytes inside the given elements. -/
def readFrom (length : Nat) (names : List (List Char)) (text : List Char) : Reading :=
  if _h : text = [] then ⟨[], none⟩
  else
    let step := readEvent text
    let position := length - byteLength step.2
    match step.1 with
    | .error fault => ⟨[], some (position, fault)⟩
    | .ok event =>
      match nest names event with
      | .error fault => ⟨[], some (position, fault)⟩
      | .ok names => (readFrom length names step.2).cons event
termination_by text.length
decreasing_by exact readEvent_length_lt _h

def read (text : List Char) : Reading :=
  readFrom (byteLength text) [] text

end ReportMigration.Markup
