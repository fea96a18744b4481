import ReportMigration.Markup.Entity

/-!
# Tags

A start tag is the text between its angle brackets: a name, white space and attributes. Reading
the attributes never fails; an item that is no attribute is passed over.
-/

namespace ReportMigration.Markup

open Text

/-- The white space of markup: space, tab, carriage return and line feed. -/
def isTagBlank (c : Char) : Bool :=
  c == ' ' || c == '\t' || c == '\r' || c == '\n'

/-- The part of a qualified name after its first colon, or the whole name without one. -/
def localName (name : List Char) : List Char :=
  match name.dropWhile (· != ':') with
  | [] => name
  | _ :: rest => rest

def tagName (tag : List Char) : List Char :=
  tag.takeWhile (!isTagBlank ·)

def tagRest (tag : List Char) : List Char :=
  tag.dropWhile (!isTagBlank ·)

/-- An attribute as it is written: its key, and its value without the quotes. -/
structure Attribute where
  key : List Char
  value : List Char
deriving DecidableEq, Repr

/-- The text from the first white space on. -/
def skipItem (text : List Char) : List Char :=
  text.dropWhile (!isTagBlank ·)

/-- Reads one item of an attribute list, given the keys before it: the key to remember, the
attribute if the item is one, and the text after the item. There is no text after the last
item. -/
def readItem (keys : List (List Char)) (text : List Char) :
    Option (Option (List Char) × Option Attribute × List Char) :=
  match text.dropWhile isTagBlank with
  | [] => none
  | first :: afterFirst =>
    let inKey := fun c : Char => c != '=' && !isTagBlank c
    let key := first :: afterFirst.takeWhile inKey
    match (afterFirst.dropWhile inKey).dropWhile isTagBlank with
    | [] => none
    | mark :: afterMark =>
      if mark ≠ '=' then some (none, none, mark :: afterMark)
      else if keys.contains key then some (none, none, skipItem afterMark)
      else match afterMark.dropWhile isTagBlank with
        | [] => none
        | quote :: afterQuote =>
          if quote ≠ '"' ∧ quote ≠ '\'' then some (some key, none, skipItem (quote :: afterQuote))
          else match afterQuote.dropWhile (· != quote) with
            | [] => none
            | _ :: rest => some (some key, some ⟨key, afterQuote.takeWhile (· != quote)⟩, rest)

theorem readItem_length_lt {keys : List (List Char)} {text : List Char}
    {item : Option (List Char) × Option Attribute × List Char}
    (h : readItem keys text = some item) : item.2.2.length < text.length := by
  unfold readItem skipItem at h
  have hb := (List.dropWhile_sublist isTagBlank (l := text)).length_le
  split at h
  · simp at h
  · next first afterFirst hf =>
    rw [hf] at hb
    dsimp only at h
    split at h
    · simp at h
    · next mark afterMark hm =>
      have hk := (List.dropWhile_sublist (fun c : Char => c != '=' && !isTagBlank c)
        (l := afterFirst)).length_le
      have hk' := (List.dropWhile_sublist isTagBlank
        (l := afterFirst.dropWhile fun c : Char => c != '=' && !isTagBlank c)).length_le
      rw [hm] at hk'
      have hs := (List.dropWhile_sublist (fun c => !isTagBlank c) (l := afterMark)).length_le
      simp only [List.length_cons] at hb hk'
      split at h
      · simp only [Option.some.injEq] at h
        subst h
        simp only [List.length_cons]
        omega
      · split at h
        · simp only [Option.some.injEq] at h
          subst h
          dsimp only
          omega
        · have hv := (List.dropWhile_sublist isTagBlank (l := afterMark)).length_le
          split at h
          · simp at h
          · next quote afterQuote hq =>
            rw [hq] at hv
            simp only [List.length_cons] at hv
            split at h
            · simp only [Option.some.injEq] at h
              subst h
              have hu :=
                (List.dropWhile_sublist (fun c => !isTagBlank c) (l := quote :: afterQuote)).length_le
              simp only [List.length_cons] at hu
              dsimp only
              omega
            · have hw := (List.dropWhile_sublist (· != quote) (l := afterQuote)).length_le
              split at h
              · simp at h
              · next last rest hr =>
                rw [hr] at hw
                simp only [List.length_cons] at hw
                simp only [Option.some.injEq] at h
                subst h
                dsimp only
                omega

/-- The attributes of a list, given the keys before it. -/
def readAttributes (keys : List (List Char)) (text : List Char) : List Attribute :=
  match _h : readItem keys text with
  | none => []
  | some (key, found, rest) =>
    found.toList ++ readAttributes (keys ++ key.toList) rest
termination_by text.length
decreasing_by exact readItem_length_lt _h

def attributes (tag : List Char) : List Attribute :=
  readAttributes [] (tagRest tag)

end ReportMigration.Markup
