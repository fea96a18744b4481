import ReportMigration.Markup.Tag

/-!
# Events

The parts of a document in their order: tags, text and everything between `<!` or `<?` and its
end. `source` is the text of an event in a written document.
-/

namespace ReportMigration.Markup

/-- A part of a document, by the text between the markers that show its kind. -/
inductive Event where
  | opening (tag : List Char)
  | empty (tag : List Char)
  | closing (name : List Char)
  | text (raw : List Char)
  | cdata (raw : List Char)
  | comment (raw : List Char)
  | declaration (raw : List Char)
  | instruction (raw : List Char)
  | doctype (raw : List Char)
deriving DecidableEq, Repr

namespace Event

def source : Event → List Char
  | opening tag => ['<'] ++ tag ++ ['>']
  | empty tag => ['<'] ++ tag ++ "/>".toList
  | closing name => "</".toList ++ name ++ ['>']
  | text raw => raw
  | cdata raw => "<![CDATA[".toList ++ raw ++ "]]>".toList
  | comment raw => "<!--".toList ++ raw ++ "-->".toList
  | declaration raw => "<?".toList ++ raw ++ "?>".toList
  | instruction raw => "<?".toList ++ raw ++ "?>".toList
  | doctype raw => "<!DOCTYPE ".toList ++ raw ++ ['>']

def sourceAll (events : List Event) : List Char :=
  events.flatMap source

end Event

end ReportMigration.Markup
