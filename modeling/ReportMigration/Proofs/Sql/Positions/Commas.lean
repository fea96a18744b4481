import ReportMigration.Proofs.Sql.Pieces
import ReportMigration.Proofs.Text.Scanner
import ReportMigration.Proofs.Text.Slice
import ReportMigration.Sql.Literal

/-!
# Literals and commas by their bytes

Readers that go through the bytes of a text and cut it at the positions they find. They look for
quotes, parentheses and commas, which are bytes of no other character, so every position is one
where the text may be cut, and they find what the readers of characters find.
-/

namespace ReportMigration.Sql

open Text

namespace Positions

/-- The position behind the closing quote of a literal whose bytes follow its opening quote, if it is
closed. -/
def closingFrom : ℕ → List UInt8 → Option ℕ
  | _, [] => none
  | position, b :: rest =>
    if b = '\''.toUInt8 then
      if rest.head? = some '\''.toUInt8 then closingFrom (position + 2) rest.tail
      else some (position + 1)
    else closingFrom (position + 1) rest
termination_by _ bs => bs.length

/-- The position behind a literal whose opening quote stands at a position. -/
def skipLiteral (text : List Char) (start : ℕ) : ℕ :=
  (closingFrom (start + 1) ((bytes text).drop (start + 1))).getD (byteLength text)

/-- The positions of the top-level commas in bytes, given whether they begin inside a literal and how
many parentheses are open in front of them. -/
def commasFrom : Bool → ℕ → ℕ → List UInt8 → List ℕ
  | _, _, _, [] => []
  | true, depth, position, b :: rest =>
    if b = '\''.toUInt8 then
      if rest.head? = some '\''.toUInt8 then commasFrom true depth (position + 2) rest.tail
      else commasFrom false depth (position + 1) rest
    else commasFrom true depth (position + 1) rest
  | false, depth, position, b :: rest =>
    if b = '\''.toUInt8 then commasFrom true depth (position + 1) rest
    else if b = '('.toUInt8 then commasFrom false (depth + 1) (position + 1) rest
    else if b = ')'.toUInt8 then commasFrom false (depth - 1) (position + 1) rest
    else if b = ','.toUInt8 ∧ depth = 0 then position :: commasFrom false 0 (position + 1) rest
    else commasFrom false depth (position + 1) rest
termination_by _ _ _ bs => bs.length

variable {quoted : Bool} {depth position : ℕ} {text front rest : List Char}

theorem closingFrom_append (position : ℕ) {bs : List UInt8} (h : ∀ b ∈ bs, b ≠ '\''.toUInt8)
    (rest : List UInt8) :
    closingFrom position (bs ++ rest) = closingFrom (position + bs.length) rest := by
  induction bs generalizing position with
  | nil => rfl
  | cons b bs ih =>
    obtain ⟨hb, hbs⟩ := List.forall_mem_cons.1 h
    rw [List.cons_append, closingFrom, if_neg hb, ih _ hbs, List.length_cons]
    congr 1
    omega

theorem closingFrom_bytes (position : ℕ) (text : List Char) :
    (closingFrom position (bytes text)).getD (position + byteLength text) =
      position + byteLength (Literal.split text).1 := by
  fun_induction Literal.split text generalizing position with
  | case1 => simp [closingFrom, bytes]
  | case2 rest ih =>
    have hlength : position + byteLength ('\'' :: '\'' :: rest) = position + 2 + byteLength rest := by
      simp only [byteLength_cons, show '\''.utf8Size = 1 from rfl]
      omega
    rw [bytes_cons_ascii (by decide), bytes_cons_ascii (by decide), closingFrom, if_pos rfl,
      List.head?_cons, if_pos rfl, List.tail_cons, hlength, ih]
    simp only [byteLength_cons, show '\''.utf8Size = 1 from rfl]
    omega
  | case3 rest hne =>
    have hnext : (bytes rest).head? ≠ some '\''.toUInt8 := by
      cases rest with
      | nil => simp [bytes]
      | cons c rest =>
        have hc : c ≠ '\'' := fun he => hne rest rfl (by rw [he])
        cases hb : String.utf8EncodeChar c with
        | nil => exact absurd hb String.utf8EncodeChar_ne_nil
        | cons b bs =>
          have hq := ne_of_mem_utf8EncodeChar (by decide) hc (hb ▸ List.mem_cons_self)
          rw [bytes_cons, hb, List.cons_append, List.head?_cons]
          exact fun he => hq (Option.some.inj he)
    rw [bytes_cons_ascii (by decide), closingFrom, if_pos rfl, if_neg hnext]
    rfl
  | case4 c rest hne hc ih =>
    have hpass := closingFrom_append position
      (fun b hb => ne_of_mem_utf8EncodeChar (by decide) hc hb) (bytes rest)
    rw [String.length_utf8EncodeChar] at hpass
    rw [bytes_cons, hpass, byteLength_cons, ← Nat.add_assoc, ih, byteLength_cons, Nat.add_assoc]

theorem drop_bytes (front rest : List Char) :
    (bytes (front ++ rest)).drop (byteLength front) = bytes rest := by
  rw [bytes_append, ← length_bytes, List.drop_left]

theorem skipLiteral_eq (front rest : List Char) :
    skipLiteral (front ++ '\'' :: rest) (byteLength front) =
      byteLength (front ++ '\'' :: (Literal.split rest).1) := by
  have hstart : byteLength front + 1 = byteLength (front ++ ['\'']) :=
    (byteLength_append front ['\'']).symm
  have htext : front ++ '\'' :: rest = (front ++ ['\'']) ++ rest := by simp
  have hsplit : front ++ '\'' :: (Literal.split rest).1 =
      (front ++ ['\'']) ++ (Literal.split rest).1 := by
    simp
  rw [skipLiteral, hstart, htext, hsplit, drop_bytes, byteLength_append _ rest, closingFrom_bytes,
    ← byteLength_append]

theorem skipLiteral_eq_endFrom (front rest : List Char) :
    skipLiteral (front ++ '\'' :: rest) (byteLength front) =
      Literal.endFrom (front ++ '\'' :: rest) (byteLength front) := by
  have hdrop : ∀ front, dropBytes (byteLength front + 1) (front ++ '\'' :: rest) = rest := by
    intro front
    induction front with
    | nil => cases rest <;> rfl
    | cons c front ih =>
      have hpos := c.utf8Size_pos
      have hleft : byteLength (c :: front) + 1 - c.utf8Size = byteLength front + 1 := by
        rw [byteLength_cons]
        omega
      rw [List.cons_append, dropBytes, hleft, ih]
  have hsplit := congrArg byteLength (Literal.split_append rest)
  rw [byteLength_append] at hsplit
  rw [skipLiteral_eq, Literal.endFrom, hdrop]
  simp only [byteLength_append, byteLength_cons]
  omega

theorem commasFrom_append {bs : List UInt8} (hq : ∀ b ∈ bs, b ≠ '\''.toUInt8)
    (h : quoted = true ∨ ∀ b ∈ bs, b ≠ '('.toUInt8 ∧ b ≠ ')'.toUInt8 ∧ ¬ (b = ','.toUInt8 ∧ depth = 0))
    (rest : List UInt8) :
    commasFrom quoted depth position (bs ++ rest) =
      commasFrom quoted depth (position + bs.length) rest := by
  induction bs generalizing position with
  | nil => rfl
  | cons b bs ih =>
    obtain ⟨hb, hbs⟩ := List.forall_mem_cons.1 hq
    have hlength : position + (b :: bs).length = position + 1 + bs.length := by
      rw [List.length_cons]
      omega
    have hrest := @ih (position + 1) hbs (h.imp_right fun h => (List.forall_mem_cons.1 h).2)
    rw [List.cons_append, hlength, ← hrest]
    cases quoted with
    | true => rw [commasFrom, if_neg hb]
    | false =>
      obtain ⟨ho, hc, hcomma⟩ := h.resolve_left (by decide) b List.mem_cons_self
      rw [commasFrom, if_neg hb, if_neg ho, if_neg hc, if_neg hcomma]

theorem commasFrom_true_quote (bs : List UInt8) :
    commasFrom true depth position ('\''.toUInt8 :: bs) =
      commasFrom false depth (position + 1) bs := by
  rw [commasFrom, if_pos rfl]
  split
  · next hnext =>
    cases bs with
    | nil => cases hnext
    | cons b bs =>
      obtain rfl : b = '\''.toUInt8 := Option.some.inj hnext
      rw [commasFrom, if_pos rfl]
      rfl
  · rfl

theorem commasFrom_pass {c : Char} (hq : c ≠ '\'')
    (h : quoted = true ∨ c ≠ '(' ∧ c ≠ ')' ∧ ¬ (c = ',' ∧ depth = 0)) (rest : List Char) :
    commasFrom quoted depth position (bytes (c :: rest)) =
      commasFrom quoted depth (position + c.utf8Size) (bytes rest) := by
  rw [bytes_cons, commasFrom_append, String.length_utf8EncodeChar]
  · exact fun b hb => ne_of_mem_utf8EncodeChar (by decide) hq hb
  · refine h.imp_right fun ⟨ho, hc, hcomma⟩ b hb => ?_
    refine ⟨ne_of_mem_utf8EncodeChar (by decide) ho hb,
      ne_of_mem_utf8EncodeChar (by decide) hc hb, ?_⟩
    rintro ⟨rfl, hdepth⟩
    exact hcomma ⟨(mem_utf8EncodeChar_iff (by decide)).1 hb, hdepth⟩

/-- Bytes of a character that is no top-level comma and no stray parenthesis go on as the character
does. -/
theorem commasFrom_cons {p q : Place} {c : Char} (h : p.step true c = some q) (position : ℕ)
    (rest : List Char) :
    commasFrom p.quoted p.depth position (bytes (c :: rest)) =
      commasFrom q.quoted q.depth (position + c.utf8Size) (bytes rest) := by
  obtain ⟨quoted, depth⟩ := p
  by_cases hq : c = '\''
  · subst hq
    obtain rfl : ⟨!quoted, depth⟩ = q := by simpa [Place.step] using h
    rw [bytes_cons_ascii (by decide)]
    cases quoted with
    | true => exact commasFrom_true_quote _
    | false =>
      rw [commasFrom, if_pos rfl]
      rfl
  by_cases hin : quoted = true
  · obtain rfl : ⟨quoted, depth⟩ = q := by simpa [Place.step, hq, hin] using h
    exact commasFrom_pass hq (.inl hin) rest
  have hout : quoted = false := by simpa using hin
  subst hout
  by_cases ho : c = '('
  · subst ho
    obtain rfl : ⟨false, depth + 1⟩ = q := by simpa [Place.step] using h
    rw [bytes_cons_ascii (by decide), commasFrom, if_neg (by decide), if_pos rfl]
    rfl
  by_cases hc : c = ')'
  · subst hc
    have hdepth : depth ≠ 0 := fun h0 => by simp [Place.step, h0] at h
    obtain rfl : ⟨false, depth - 1⟩ = q := by simpa [Place.step, hdepth] using h
    rw [bytes_cons_ascii (by decide), commasFrom, if_neg (by decide), if_neg (by decide), if_pos rfl]
    rfl
  have hcomma : ¬ (c = ',' ∧ depth = 0) := fun h0 => by simp [Place.step, h0] at h
  obtain rfl : ⟨false, depth⟩ = q := by simpa [Place.step, hq, ho, hc, hcomma] using h
  exact commasFrom_pass hq (.inr ⟨ho, hc, hcomma⟩) rest

theorem commasFrom_stray (position : ℕ) (rest : List Char) :
    commasFrom false 0 position (bytes (')' :: rest)) =
      commasFrom false 0 (position + 1) (bytes rest) := by
  rw [bytes_cons_ascii (by decide), commasFrom, if_neg (by decide), if_neg (by decide), if_pos rfl]

theorem commasFrom_comma (position : ℕ) (rest : List Char) :
    commasFrom false 0 position (bytes (',' :: rest)) =
      position :: commasFrom false 0 (position + 1) (bytes rest) := by
  rw [bytes_cons_ascii (by decide), commasFrom, if_neg (by decide), if_neg (by decide),
    if_neg (by decide), if_pos ⟨rfl, rfl⟩]

/-- The positions of the commas in front of pieces, the first of them at a position. -/
def commasBefore : ℕ → List (List Char) → List ℕ
  | _, [] => []
  | comma, piece :: pieces => comma :: commasBefore (comma + 1 + byteLength piece) pieces

theorem commasFrom_bytes (p : Place) (position : ℕ) (text : List Char) :
    commasFrom p.quoted p.depth position (bytes text) =
      commasBefore (position + byteLength (Arguments.cut p.quoted p.depth text).1)
        (Arguments.cut p.quoted p.depth text).2 := by
  induction text generalizing p position with
  | nil => simp [commasFrom, commasBefore, Arguments.cut, bytes]
  | cons c text ih =>
    have hprepend : ∀ (c : Char) (position : ℕ) (r : List Char × List (List Char)),
        commasBefore (position + c.utf8Size + byteLength r.1) r.2 =
          commasBefore (position + byteLength (Arguments.prepend [c] r).1)
            (Arguments.prepend [c] r).2 := by
      intro c position r
      rw [Arguments.prepend, List.singleton_append, byteLength_cons, Nat.add_assoc]
    cases h : p.step true c with
    | some q =>
      rw [commasFrom_cons h, Arguments.cut_cons h, ih, hprepend]
    | none =>
      obtain ⟨rfl | rfl, rfl⟩ := Place.of_step_eq_none h
      · rw [commasFrom_stray, Arguments.cut_stray, ← hprepend]
        exact ih ⟨false, 0⟩ (position + 1)
      · rw [commasFrom_comma, Arguments.cut_comma, Arguments.pieces, commasBefore, byteLength_nil,
          Nat.add_zero]
        exact congrArg _ (ih ⟨false, 0⟩ (position + 1))

/-- The positions of the top-level commas of a text. -/
def commas (text : List Char) : List ℕ :=
  commasFrom false 0 0 (bytes text)

/-- The trimmed slices between commas, from a position on, if they all exist. -/
def slicesFrom (text : List Char) : ℕ → List ℕ → Option (List (List Char))
  | last, [] => do
    let piece ← slice text last (byteLength text)
    pure [trim piece]
  | last, comma :: commas => do
    let piece ← slice text last comma
    let pieces ← slicesFrom text (comma + 1) commas
    pure (trim piece :: pieces)

/-- The arguments that a text between parentheses lists, cut at the positions of its commas. -/
def splitArguments (text : List Char) : Option (List (List Char)) :=
  slicesFrom text 0 (commas text)

private theorem slicesFrom_eq (front first : List Char) (pieces : List (List Char)) :
    slicesFrom (front ++ (first ++ pieces.flatMap fun piece => ',' :: piece)) (byteLength front)
      (commasBefore (byteLength (front ++ first)) pieces) = some ((first :: pieces).map trim) := by
  induction pieces generalizing front first with
  | nil =>
    rw [List.flatMap_nil, List.append_nil, commasBefore, slicesFrom, slice_rest]
    rfl
  | cons piece pieces ih =>
    have htext : front ++ (first ++ (piece :: pieces).flatMap fun piece => ',' :: piece) =
        (front ++ (first ++ [','])) ++ (piece ++ pieces.flatMap fun piece => ',' :: piece) := by simp
    have hcomma : byteLength (front ++ first) + 1 = byteLength (front ++ (first ++ [','])) := by
      simp only [byteLength_append]
      rfl
    have hnext := ih (front ++ (first ++ [','])) piece
    rw [commasBefore, slicesFrom, slice_append, htext, hcomma, ← byteLength_append, hnext]
    rfl

theorem splitArguments_eq (text : List Char) : splitArguments text = some (Arguments.split text) := by
  have hslices := slicesFrom_eq [] (Arguments.cut false 0 text).1 (Arguments.cut false 0 text).2
  have htext := Arguments.text_cut ⟨false, 0⟩ text
  have hcommas := commasFrom_bytes ⟨false, 0⟩ 0 text
  rw [Nat.zero_add] at hcommas
  rw [splitArguments, commas, hcommas]
  rwa [List.nil_append, List.nil_append, htext] at hslices

theorem byteLength_comma (front rest : List Char) :
    byteLength (front ++ ',' :: rest) = byteLength front + 1 + byteLength rest := by
  rw [byteLength_append, byteLength_cons, ← Nat.add_assoc]
  rfl

/-- The position behind the white space that follows a comma, if the text may be cut behind the
comma. -/
def breakAfter (text : List Char) (comma : ℕ) : Option (ℕ × ℕ) := do
  let rest ← slice text (comma + 1) (byteLength text)
  pure (comma, if rest.all isBlank then byteLength text
    else comma + 1 + byteLength (rest.takeWhile isBlank))

/-- The top-level commas of a text, each with the end of the white space after it. -/
def commaBreaks (text : List Char) : Option (List (ℕ × ℕ)) :=
  (commas text).mapM (breakAfter text)

private theorem breakAfter_eq (front rest : List Char) :
    breakAfter (front ++ ',' :: rest) (byteLength front) =
      some (byteLength front, byteLength front + 1 + byteLength (rest.takeWhile isBlank)) := by
  have hslice := slice_rest (front ++ [',']) rest
  rw [List.append_assoc, List.singleton_append, byteLength_append front [',']] at hslice
  have hcomma : byteLength [','] = 1 := rfl
  rw [hcomma] at hslice
  rw [breakAfter, hslice]
  by_cases hb : rest.all isBlank = true
  · have htake : rest.takeWhile isBlank = rest := List.takeWhile_eq_self_iff.2 (by simpa using hb)
    simp only [Option.bind_eq_bind, Option.bind_some, if_pos hb, htake, byteLength_append,
      byteLength_cons]
    rw [← Nat.add_assoc]
    rfl
  · simp only [Option.bind_eq_bind, Option.bind_some, if_neg hb]
    rfl

theorem takeWhile_pieces (piece : List Char) (pieces : List (List Char)) :
    (piece ++ pieces.flatMap fun piece => ',' :: piece).takeWhile isBlank =
      piece.takeWhile isBlank := by
  cases pieces with
  | nil => rw [List.flatMap_nil, List.append_nil]
  | cons next pieces =>
    rw [List.flatMap_cons, List.cons_append, Scan.takeWhile_append_of_neg (by decide)]

private theorem mapM_breakAfter (front : List Char) (pieces : List (List Char)) :
    (commasBefore (byteLength front) pieces).mapM
        (breakAfter (front ++ pieces.flatMap fun piece => ',' :: piece)) =
      some (Arguments.breaksFrom (byteLength front) pieces) := by
  induction pieces generalizing front with
  | nil => rfl
  | cons piece pieces ih =>
    have hnext := ih (front ++ ',' :: piece)
    rw [byteLength_comma, List.append_assoc, List.cons_append] at hnext
    rw [List.flatMap_cons, List.cons_append, commasBefore, List.mapM_cons, breakAfter_eq, hnext,
      takeWhile_pieces]
    rfl

/-- Every position that is cut at exists, and the breaks are those that the reader of characters
finds. -/
theorem commaBreaks_eq (text : List Char) : commaBreaks text = some (Arguments.breaks text) := by
  have htext := Arguments.text_cut ⟨false, 0⟩ text
  have hcommas := commasFrom_bytes ⟨false, 0⟩ 0 text
  have hbreaks := mapM_breakAfter (Arguments.cut false 0 text).1 (Arguments.cut false 0 text).2
  rw [Nat.zero_add] at hcommas
  rw [htext] at hbreaks
  rw [commaBreaks, commas, hcommas, hbreaks]
  rfl

end Positions

end ReportMigration.Sql
