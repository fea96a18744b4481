import ReportMigration.Failure
import ReportMigration.Markup.Tag
import ReportMigration.Text.Blank

/-!
# Field selectors

A selector names the elements of a report that hold SQL: `queryString`, or
`property[name=queryText]` for an element with a certain attribute. Namespace prefixes in the
document do not matter.
-/

namespace ReportMigration.Markup

open Text

/-- An element by its local name and, if asked for, one of its attributes by local name and
value. -/
structure Selector where
  element : List Char
  condition : Option (List Char × List Char)
deriving DecidableEq, Repr

namespace Selector

/-- The attribute has the wanted local name and, once decoded, the wanted value. -/
def accepts (wanted : List Char × List Char) (found : Attribute) : Bool :=
  localName found.key == wanted.1 &&
    match decode found.value with
    | .ok value => value == wanted.2
    | .error _ => false

/-- Whether a selector selects the element that a start tag opens. -/
def selects (s : Selector) (tag : List Char) : Bool :=
  localName (tagName tag) == s.element &&
    match s.condition with
    | none => true
    | some wanted => (attributes tag).any (accepts wanted)

/-- The selectors of a configuration that names none. -/
def defaults : List Selector :=
  [⟨"queryString".toList, none⟩,
    ⟨"property".toList, some ("name".toList, "queryText".toList)⟩,
    ⟨"xml-property".toList, some ("name".toList, "queryText".toList)⟩]

def isNameChar (c : Char) : Bool :=
  isAlphanumeric c || c == '_' || c == '-' || c == '.' || c == ':'

/-- A text that may name an element or an attribute. -/
def isName (s : List Char) : Bool :=
  !s.isEmpty && s.all isNameChar

/-- Why a text is no selector. -/
inductive Fault where
  | unclosed
  | element
  | condition
deriving DecidableEq, Repr

def Fault.message : Fault → String
  | unclosed => "missing closing ']'"
  | element => "element name must be a non-empty XML name"
  | condition => "attribute predicate must be attr=value"

def isQuote (c : Char) : Bool :=
  c == '"' || c == '\''

/-- The text without the quotes at either end. -/
def trimQuotes (s : List Char) : List Char :=
  ((s.dropWhile isQuote).reverse.dropWhile isQuote).reverse

def parseCondition (s : List Char) : Except Fault (List Char × List Char) :=
  match s.dropWhile (· != '=') with
  | [] => .error .condition
  | _ :: written =>
    let name := trim (s.takeWhile (· != '='))
    let value := trimQuotes (trim written)
    if !isName name || value.isEmpty then .error .condition else .ok (name, value)

/-- Reads a selector, around which white space does not count. -/
def parse (text : List Char) : Except Fault Selector :=
  let s := trim text
  let element := s.takeWhile (· != '[')
  match s.dropWhile (· != '[') with
  | [] => if isName element then .ok ⟨element, none⟩ else .error .element
  | _ :: bracketed =>
    if bracketed.getLast? ≠ some ']' then .error .unclosed
    else if !isName element then .error .element
    else (parseCondition bracketed.dropLast).map fun condition => ⟨element, some condition⟩

def ofSetting (text : String) : Except Failure Selector :=
  (parse text.toList).mapError fun fault =>
    .invalidSetting "migration.sql_fields" text fault.message

def display (s : Selector) : List Char :=
  match s.condition with
  | none => s.element
  | some (name, value) => s.element ++ ['['] ++ name ++ ['='] ++ value ++ [']']

end Selector

end ReportMigration.Markup
