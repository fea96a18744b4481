import ReportMigration.Proofs.Sql.Layout.Breaks
import ReportMigration.Proofs.Sql.Positions.Openers

/-!
# Clauses by their positions

The layout as a reader that cuts a text at the positions of its clauses, the body of a select clause
behind its quantifier, and the columns at their commas. Every slice exists, whatever the spans of the
clauses and the ends of the quantifiers, as long as the text may be cut there and they lie one behind
the other.
-/

namespace ReportMigration.Sql.Positions

open Text Scan Layout

/-- The items of a select list from a position on, each on a line of its own, where the commas are
given with the end of the white space behind them. -/
def itemsFrom (columns : List Char) : ℕ → List (ℕ × ℕ) → Option (List Char)
  | last, [] => slice columns last (byteLength columns)
  | last, (comma, stop) :: breaks => do
    let item ← slice columns last (comma + 1)
    let items ← itemsFrom columns stop breaks
    pure (item ++ indent ++ items)

/-- Puts every item of a select list on a line of its own. The reader of quantifiers says where the
one that the body begins with ends. -/
def reflowAt (quantifierEnd : List Char → Option ℕ) (body : List Char) : Option (List Char) := do
  let (head, rest) ← (quantifierEnd body).elim (some ([], body)) (cutAt · body)
  let columns := trimStart rest
  let breaks ← commaBreaks columns
  let items ← itemsFrom columns 0 breaks
  pure (head ++ ((if byteLength columns < byteLength rest then indent else []) ++ items))

private theorem itemsFrom_eq (front first : List Char) (pieces : List (List Char)) :
    itemsFrom (front ++ (first ++ pieces.flatMap fun piece => ',' :: piece)) (byteLength front)
      (Arguments.breaksFrom (byteLength (front ++ first)) pieces) =
        some (first ++ pieces.flatMap fun piece => ',' :: indent ++ trimStart piece) := by
  induction pieces generalizing front first with
  | nil =>
    rw [List.flatMap_nil, List.flatMap_nil, List.append_nil, Arguments.breaksFrom, itemsFrom,
      slice_rest]
  | cons piece pieces ih =>
    obtain ⟨gap, hgap⟩ : ∃ gap, piece.takeWhile isBlank = gap := ⟨_, rfl⟩
    have hpiece : piece = gap ++ trimStart piece := by
      rw [← hgap]
      exact List.takeWhile_append_dropWhile.symm
    have hitem := slice_append front (first ++ [','])
      (piece ++ pieces.flatMap fun piece => ',' :: piece)
    have hitems := ih (front ++ (first ++ ',' :: gap)) (trimStart piece)
    have htext : front ++ ((first ++ [',']) ++ (piece ++ pieces.flatMap fun piece => ',' :: piece)) =
        front ++ (first ++ (piece :: pieces).flatMap fun piece => ',' :: piece) := by simp
    have hbehind : (front ++ (first ++ ',' :: gap)) ++
        (trimStart piece ++ pieces.flatMap fun piece => ',' :: piece) =
          front ++ (first ++ (piece :: pieces).flatMap fun piece => ',' :: piece) := by
      conv_rhs => rw [List.flatMap_cons, hpiece]
      simp
    have hcomma : byteLength (front ++ (first ++ [','])) = byteLength (front ++ first) + 1 := by
      rw [← List.append_assoc, byteLength_comma, byteLength_nil]
    have hstop : byteLength (front ++ (first ++ ',' :: gap)) =
        byteLength (front ++ first) + 1 + byteLength gap := by
      rw [← List.append_assoc, byteLength_comma]
    have hnext : byteLength ((front ++ (first ++ ',' :: gap)) ++ trimStart piece) =
        byteLength (front ++ first) + 1 + byteLength piece := by
      rw [byteLength_append, hstop, Nat.add_assoc _ (byteLength gap), ← byteLength_append, ← hpiece]
    rw [htext, hcomma] at hitem
    rw [hbehind, hnext, hstop] at hitems
    rw [Arguments.breaksFrom, hgap, itemsFrom, hitem, hitems]
    simp

/-- The slices of a select list exist, and its columns are those of the reader of characters. -/
theorem reflowAt_eq {quantifierEnd : List Char → Option ℕ} {body head rest : List Char}
    (h : (quantifierEnd body).elim (some ([], body)) (cutAt · body) = some (head, rest)) :
    reflowAt quantifierEnd body = some (head ++ columns rest) := by
  have hitems := itemsFrom_eq [] (Arguments.cut false 0 (trimStart rest)).1
    (Arguments.cut false 0 (trimStart rest)).2
  have htext := Arguments.text_cut ⟨false, 0⟩ (trimStart rest)
  have hlead : byteLength (trimStart rest) < byteLength rest ↔
      (trimStart rest).length < rest.length := by
    have hrest : rest.takeWhile isBlank ++ trimStart rest = rest := List.takeWhile_append_dropWhile
    have hbytes := congrArg byteLength hrest
    have hchars := congrArg List.length hrest
    rw [byteLength_append] at hbytes
    rw [List.length_append] at hchars
    cases hgap : rest.takeWhile isBlank with
    | nil =>
      rw [hgap] at hbytes hchars
      simp only [byteLength_nil, List.length_nil] at hbytes hchars
      omega
    | cons c gap =>
      have hpos := byteLength_pos (List.cons_ne_nil c gap)
      rw [hgap] at hbytes hchars
      rw [List.length_cons] at hchars
      omega
  rw [List.nil_append, List.nil_append, htext] at hitems
  simp only [reflowAt, h, Option.bind_eq_bind, Option.bind_some, commaBreaks_eq, Arguments.breaks,
    columns, listed, hlead]
  rw [byteLength_nil] at hitems
  rw [hitems]
  rfl

theorem exists_reflowAt {quantifierEnd : List Char → Option ℕ} {body : List Char}
    (h : ∀ stop, quantifierEnd body = some stop → Boundary body stop) :
    ∃ out, reflowAt quantifierEnd body = some out := by
  cases hend : quantifierEnd body with
  | none => exact ⟨_, reflowAt_eq (by rw [hend]; rfl)⟩
  | some stop =>
    obtain ⟨front, back, hbody, hlength⟩ := h stop hend
    exact ⟨_, reflowAt_eq (by rw [hend]; exact cutAt_eq_some.2 ⟨hbody, hlength⟩)⟩

/-- Where the quantifier ends that a select list begins with, if there is one. -/
def quantifierEnd (body : List Char) : Option ℕ :=
  (quantifier ⟨none, body⟩).map fun (_, n) => byteLength (body.take n)

theorem boundary_quantifierEnd {body : List Char} {stop : ℕ} (h : quantifierEnd body = some stop) :
    Boundary body stop := by
  obtain ⟨⟨u, n⟩, -, rfl⟩ := Option.map_eq_some_iff.1 h
  exact ⟨body.take n, body.drop n, (List.take_append_drop n body).symm, rfl⟩

theorem reflowAt_quantifierEnd (body : List Char) :
    reflowAt quantifierEnd body = some (reflow body) := by
  rw [reflow_eq]
  refine reflowAt_eq ?_
  rw [quantifierEnd, cutQuantifier]
  cases quantifier ⟨none, body⟩ with
  | none => rfl
  | some r => exact cutAt_eq_some.2 ⟨(List.take_append_drop _ _).symm, rfl⟩

/-- A clause between the positions where its words begin, where they end and where it ends, with its
select list, if it has one, on lines of its own. -/
def clauseAt (find : List Char → Option ℕ) (sql : List Char) (start stop clauseEnd : ℕ) :
    Option (List Char) := do
  let words ← slice sql start stop
  let body ← slice sql stop clauseEnd
  if equalIgnoringAsciiCase words "SELECT".toList then (reflowAt find body).map (words ++ ·)
  else some (words ++ body)

/-- Writes clauses behind what is written, each on a new line. A clause is given by where it begins,
with the white space before it, and where its words begin and end. -/
def writeFrom (find : List Char → Option ℕ) (sql : List Char) :
    List Char → List (ℕ × ℕ × ℕ) → Option (List Char)
  | out, [] => some out
  | out, (_, start, stop) :: clauses => do
    let text ← clauseAt find sql start stop (clauses.head?.elim (byteLength sql) Prod.fst)
    writeFrom find sql ((if out = [] then [] else out ++ ['\n']) ++ text) clauses

/-- Starts every clause on its own line. -/
def breakAt (find : List Char → Option ℕ) (clauses : List (ℕ × ℕ × ℕ)) (sql : List Char) :
    Option (List Char) :=
  match clauses with
  | [] => some sql
  | (whole, words) :: clauses => do
    let lead ← slice sql 0 whole
    writeFrom find sql lead ((whole, words) :: clauses)

/-- The clauses lie one behind the other, behind a position, between places where the text may be
cut. -/
def ClauseSpans (text : List Char) : ℕ → List (ℕ × ℕ × ℕ) → Prop
  | _, [] => True
  | last, (whole, start, stop) :: clauses => last ≤ whole ∧ whole ≤ start ∧ start ≤ stop ∧
      Boundary text whole ∧ Boundary text start ∧ Boundary text stop ∧ ClauseSpans text stop clauses

variable {find : List Char → Option ℕ} {sql front out : List Char} {last : ℕ}
  {clauses : List (ℕ × ℕ × ℕ)}

private theorem exists_slice {start stop : ℕ} (hle : start ≤ stop) (hstart : Boundary sql start)
    (hstop : Boundary sql stop) : ∃ text, slice sql start stop = some text :=
  Option.isSome_iff_exists.1 (slice_isSome_iff.2 ⟨hle, hstart, hstop⟩)

private theorem exists_clauseAt (hfind : ∀ body stop, find body = some stop → Boundary body stop)
    {start stop clauseEnd : ℕ} (hwords : start ≤ stop) (hbody : stop ≤ clauseEnd)
    (hstart : Boundary sql start) (hstop : Boundary sql stop) (hend : Boundary sql clauseEnd) :
    ∃ text, clauseAt find sql start stop clauseEnd = some text := by
  obtain ⟨words, hwords⟩ := exists_slice hwords hstart hstop
  obtain ⟨body, hbody⟩ := exists_slice hbody hstop hend
  obtain ⟨out, hout⟩ := exists_reflowAt (hfind body)
  simp only [clauseAt, hwords, hbody, hout, Option.bind_eq_bind, Option.bind_some, Option.map_some]
  split
  · exact ⟨_, rfl⟩
  · exact ⟨_, rfl⟩

private theorem exists_writeFrom (hfind : ∀ body stop, find body = some stop → Boundary body stop)
    (h : ClauseSpans sql last clauses) (out : List Char) :
    ∃ text, writeFrom find sql out clauses = some text := by
  induction clauses generalizing last out with
  | nil => exact ⟨out, rfl⟩
  | cons clause clauses ih =>
    obtain ⟨whole, start, stop⟩ := clause
    obtain ⟨-, -, hle, -, hstart, hstop, hrest⟩ := h
    have hnext : stop ≤ clauses.head?.elim (byteLength sql) Prod.fst ∧
        Boundary sql (clauses.head?.elim (byteLength sql) Prod.fst) := by
      cases clauses with
      | nil => exact ⟨hstop.le, boundary_byteLength sql⟩
      | cons next clauses => exact ⟨hrest.1, hrest.2.2.2.1⟩
    obtain ⟨text, htext⟩ := exists_clauseAt hfind hle hnext.1 hstart hstop hnext.2
    rw [writeFrom, htext]
    exact ih hrest _

theorem exists_breakAt (hfind : ∀ body stop, find body = some stop → Boundary body stop)
    (h : ClauseSpans sql 0 clauses) : ∃ text, breakAt find clauses sql = some text := by
  cases clauses with
  | nil => exact ⟨sql, rfl⟩
  | cons clause clauses =>
    obtain ⟨whole, words⟩ := clause
    obtain ⟨lead, hlead⟩ := exists_slice (Nat.zero_le whole) (boundary_zero sql) h.2.2.2.1
    rw [breakAt, hlead]
    exact exists_writeFrom hfind h lead

/-- The positions of the clauses among segments, the first of which begins at a position. -/
def clauseSpansFrom : ℕ → List (Segment (List Char)) → List (ℕ × ℕ × ℕ)
  | _, [] => []
  | position, .plain c :: segments => clauseSpansFrom (position + c.utf8Size) segments
  | position, .hit text words :: segments =>
    (position, position + (byteLength text - byteLength words), position + byteLength text) ::
      clauseSpansFrom (position + byteLength text) segments

def clauseSpans (sql : List Char) : List (ℕ × ℕ × ℕ) :=
  clauseSpansFrom 0 (clauseStart.segments sql)

/-- A clause is read with the white space before its words. -/
def Worded : Segment (List Char) → Prop
  | .plain _ => True
  | .hit text words => (∃ gap, text = gap ++ words) ∧ words ≠ []

theorem worded_of_mem_segments {segment : Segment (List Char)}
    (h : segment ∈ clauseStart.segments sql) : Worded segment := by
  cases segment with
  | plain c => trivial
  | hit text words =>
    have hwords : Yields clauseKeyword.written fun words text => words = text ∧ words ≠ [] := by
      refine yields_clauseKeyword.written.mono ?_
      rintro words _ ⟨rfl, -, hshape⟩
      refine ⟨rfl, ?_⟩
      rintro rfl
      exact absurd hshape.shape.1 (by decide)
    have hyields : Yields clauseStart fun words text => (∃ gap, text = gap ++ words) ∧ words ≠ [] := by
      refine (((yields_guard _).bind fun _ => hwords).orElse
        ((yields_run₁ _).bind fun _ => hwords)).mono ?_
      rintro words _ (⟨-, gap, _, rfl, -, rfl, hne⟩ | ⟨-, gap, _, rfl, -, rfl, hne⟩)
      · exact ⟨⟨gap, rfl⟩, hne⟩
      · exact ⟨⟨gap, rfl⟩, hne⟩
    exact hyields.mem_segmentsFrom _ _ _ h

private theorem byteLength_gap (gap words : List Char) :
    byteLength (gap ++ words) - byteLength words = byteLength gap := by
  rw [byteLength_append, Nat.add_sub_cancel]

theorem ClauseSpans.mono {last' : ℕ} (h : ClauseSpans sql last clauses) (hle : last' ≤ last) :
    ClauseSpans sql last' clauses := by
  cases clauses with
  | nil => trivial
  | cons clause clauses => exact ⟨hle.trans h.1, h.2⟩

theorem clauseSpans_clauseSpansFrom (front : List Char) {segments : List (Segment (List Char))}
    (h : ∀ segment ∈ segments, Worded segment) :
    ClauseSpans (front ++ segments.flatMap Segment.text) (byteLength front)
      (clauseSpansFrom (byteLength front) segments) := by
  induction segments generalizing front with
  | nil => trivial
  | cons segment segments ih =>
    obtain ⟨hsegment, hrest⟩ := List.forall_mem_cons.1 h
    have hnext := ih (front ++ segment.text) hrest
    rw [List.append_assoc, ← List.flatMap_cons, byteLength_append] at hnext
    cases segment with
    | plain c => exact hnext.mono (Nat.le_add_right _ _)
    | hit text words =>
      obtain ⟨⟨gap, rfl⟩, -⟩ := hsegment
      rw [clauseSpansFrom, byteLength_gap, List.flatMap_cons]
      refine ⟨le_rfl, Nat.le_add_right _ _, ?_, boundary_append _ _, ?_, ?_, hnext⟩
      · rw [byteLength_append]
        omega
      · rw [← byteLength_append, Segment.text, List.append_assoc, ← List.append_assoc]
        exact boundary_append _ _
      · rw [← byteLength_append, ← List.append_assoc]
        exact boundary_append _ _

theorem clauseSpans_spec (sql : List Char) : ClauseSpans sql 0 (clauseSpans sql) := by
  have h := clauseSpans_clauseSpansFrom [] fun segment (h : segment ∈ clauseStart.segments sql) =>
    worded_of_mem_segments h
  rwa [segments_text] at h

private theorem exists_lead (front : List Char) (segments : List (Segment (List Char))) :
    ∃ back, segments.flatMap Segment.text = (clausesOf segments).1 ++ back ∧
      (clauseSpansFrom (byteLength front) segments).head?.elim
          (byteLength (front ++ segments.flatMap Segment.text)) Prod.fst =
        byteLength (front ++ (clausesOf segments).1) := by
  induction segments generalizing front with
  | nil => exact ⟨[], rfl, rfl⟩
  | cons segment segments ih =>
    cases segment with
    | plain c =>
      obtain ⟨back, htext, hspans⟩ := ih (front ++ [c])
      refine ⟨back, by rw [List.flatMap_cons, htext]; rfl, ?_⟩
      rw [byteLength_append, List.append_assoc, List.append_assoc] at hspans
      exact hspans
    | hit text words => exact ⟨_, rfl, by simp [clauseSpansFrom, clausesOf]⟩

/-- Writes a clause behind what is written, on a new line unless nothing is. -/
def writeClause (out : List Char) (clause : Clause) : List Char :=
  (if out = [] then [] else out ++ ['\n']) ++ clause.text

private theorem clauseAt_eq (front gap words body back : List Char) :
    clauseAt quantifierEnd (front ++ (gap ++ (words ++ (body ++ back))))
      (byteLength (front ++ gap)) (byteLength (front ++ (gap ++ words)))
      (byteLength (front ++ (gap ++ (words ++ body)))) = some (Clause.text ⟨words, body⟩) := by
  have hwords := slice_append (front ++ gap) words (body ++ back)
  have hbody := slice_append (front ++ (gap ++ words)) body back
  simp only [List.append_assoc] at hwords hbody
  simp only [clauseAt, hwords, hbody, Option.bind_eq_bind, Option.bind_some, reflowAt_quantifierEnd,
    Option.map_some, Clause.text]
  split <;> rfl

private theorem writeFrom_clauseSpansFrom (front out : List Char)
    {segments : List (Segment (List Char))} (h : ∀ segment ∈ segments, Worded segment) :
    writeFrom quantifierEnd (front ++ segments.flatMap Segment.text) out
      (clauseSpansFrom (byteLength front) segments) =
        some ((clausesOf segments).2.foldl writeClause out) := by
  induction segments generalizing front out with
  | nil => rfl
  | cons segment segments ih =>
    obtain ⟨hsegment, hrest⟩ := List.forall_mem_cons.1 h
    have hnext := fun out => ih (front ++ segment.text) out hrest
    rw [List.append_assoc, ← List.flatMap_cons, byteLength_append] at hnext
    cases segment with
    | plain c => exact hnext out
    | hit text words =>
      obtain ⟨⟨gap, rfl⟩, -⟩ := hsegment
      obtain ⟨back, htext, hlead⟩ := exists_lead (front ++ (gap ++ words)) segments
      have hsql : front ++ (Segment.hit (gap ++ words) words :: segments).flatMap Segment.text =
          front ++ (gap ++ (words ++ ((clausesOf segments).1 ++ back))) := by
        rw [List.flatMap_cons, htext, Segment.text, List.append_assoc]
      have hclause := clauseAt_eq front gap words (clausesOf segments).1 back
      have hend : front ++ (gap ++ words) ++ segments.flatMap Segment.text =
          front ++ (Segment.hit (gap ++ words) words :: segments).flatMap Segment.text := by
        rw [List.flatMap_cons, Segment.text, List.append_assoc]
      rw [hend, byteLength_append front (gap ++ words), List.append_assoc, List.append_assoc] at hlead
      rw [← hsql, byteLength_append front gap, byteLength_append front (gap ++ words),
        ← hlead] at hclause
      rw [clauseSpansFrom, byteLength_gap, writeFrom, hclause]
      exact hnext _

theorem foldl_writeClause {out : List Char} (h : out ≠ []) (clauses : List Clause) :
    clauses.foldl writeClause out = out ++ onNewLines clauses := by
  induction clauses generalizing out with
  | nil => exact (List.append_nil out).symm
  | cons clause clauses ih =>
    rw [List.foldl_cons, writeClause, if_neg h, ih (by simp), onNewLines, onNewLines,
      List.flatMap_cons]
    simp

private theorem clause_text_ne_nil {clause : Clause} (h : clause.words ≠ []) : clause.text ≠ [] := by
  rw [Clause.text]
  split <;> simp [h]

private theorem words_ne_nil {segments : List (Segment (List Char))}
    (h : ∀ segment ∈ segments, Worded segment) :
    ∀ clause ∈ (clausesOf segments).2, clause.words ≠ [] := by
  induction segments with
  | nil => simp [clausesOf]
  | cons segment segments ih =>
    obtain ⟨hsegment, hrest⟩ := List.forall_mem_cons.1 h
    cases segment with
    | plain c => exact ih hrest
    | hit text words => exact List.forall_mem_cons.2 ⟨hsegment.2, ih hrest⟩

/-- The clauses are written one behind the other, the first of them on a new line if text stands in
front of it. -/
theorem breakClauses_eq (sql : List Char) :
    breakClauses sql = (clausesOf (clauseStart.segments sql)).2.foldl writeClause
      (clausesOf (clauseStart.segments sql)).1 := by
  have hne := words_ne_nil fun segment (h : segment ∈ clauseStart.segments sql) =>
    worded_of_mem_segments h
  rw [breakClauses]
  split
  · next first rest heq =>
    rw [heq] at hne ⊢
    have hfirst := clause_text_ne_nil (hne first List.mem_cons_self)
    rw [List.foldl_cons, writeClause, if_pos rfl, List.nil_append, foldl_writeClause hfirst]
  · next lead clauses hnot heq =>
    rw [heq]
    cases lead with
    | nil =>
      cases clauses with
      | nil => rfl
      | cons first rest => exact (hnot first rest rfl rfl).elim
    | cons c lead => rw [foldl_writeClause (List.cons_ne_nil c lead)]

private theorem clausesOf_of_clauseSpansFrom_eq_nil {position : ℕ}
    {segments : List (Segment (List Char))} (h : clauseSpansFrom position segments = []) :
    clausesOf segments = (segments.flatMap Segment.text, []) := by
  induction segments generalizing position with
  | nil => rfl
  | cons segment segments ih =>
    cases segment with
    | plain c =>
      rw [clausesOf, ih h]
      rfl
    | hit text words => cases h

/-- The slices between the clauses of a text exist, and its clauses are broken as the reader of
characters breaks them. -/
theorem breakAt_clauseSpans (sql : List Char) :
    breakAt quantifierEnd (clauseSpans sql) sql = some (breakClauses sql) := by
  have hwrite := fun out => writeFrom_clauseSpansFrom [] out fun segment
    (h : segment ∈ clauseStart.segments sql) => worded_of_mem_segments h
  obtain ⟨back, htext, hlead⟩ := exists_lead [] (clauseStart.segments sql)
  simp only [List.nil_append, byteLength_nil, segments_text] at hwrite hlead htext
  rw [breakClauses_eq]
  cases hspans : clauseSpans sql with
  | nil =>
    rw [clausesOf_of_clauseSpansFrom_eq_nil hspans, segments_text]
    rfl
  | cons clause clauses =>
    obtain ⟨whole, words⟩ := clause
    have hslice := slice_append [] (clausesOf (clauseStart.segments sql)).1 back
    rw [← clauseSpans, hspans] at hwrite hlead
    rw [List.nil_append, List.nil_append, ← htext, ← hlead] at hslice
    have hfirst : slice sql 0 whole = some (clausesOf (clauseStart.segments sql)).1 := hslice
    rw [breakAt, hfirst]
    exact hwrite _

end ReportMigration.Sql.Positions
