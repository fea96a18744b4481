import ReportMigration.Text.Utf8

/-!
# String literals

A literal stands between single quotes, and a quote inside it is written twice. A literal that is
never closed runs to the end of the text.
-/

namespace ReportMigration.Sql.Literal

open Text

/-- Cuts the text after an opening quote into the rest of the literal, closing quote included, and
the text that follows it. -/
def split : List Char → List Char × List Char
  | [] => ([], [])
  | '\'' :: '\'' :: rest => ('\'' :: '\'' :: (split rest).1, (split rest).2)
  | c :: rest => if c = '\'' then ([c], rest) else (c :: (split rest).1, (split rest).2)

/-- The byte position just past the literal whose opening quote stands at a byte position. -/
def endFrom (text : List Char) (start : Nat) : Nat :=
  byteLength text - byteLength (split (dropBytes (start + 1) text)).2

theorem split_append (text : List Char) : (split text).1 ++ (split text).2 = text := by
  fun_induction split text <;> simp_all

end ReportMigration.Sql.Literal
