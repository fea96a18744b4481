/-!
# Byte positions

Positions in a text are counted in the bytes of its UTF-8 form.
-/

namespace ReportMigration.Text

def byteLength : List Char → Nat
  | [] => 0
  | c :: rest => c.utf8Size + byteLength rest

/-- The text from the first character on that starts at or after a byte position. -/
def dropBytes : Nat → List Char → List Char
  | _, [] => []
  | 0, text => text
  | n + 1, c :: rest => dropBytes (n + 1 - c.utf8Size) rest

theorem byteLength_append (s t : List Char) : byteLength (s ++ t) = byteLength s + byteLength t := by
  induction s with
  | nil => simp [byteLength]
  | cons c s ih => simp [byteLength, ih, Nat.add_assoc]

end ReportMigration.Text
