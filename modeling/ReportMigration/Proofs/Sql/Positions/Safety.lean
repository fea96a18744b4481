import ReportMigration.Proofs.Sql.Positions.Clauses

/-!
# Every cut exists

The readers of `Commas`, `Calls` and `Clauses` cut a text only where it may be cut, whatever the
text, the transform and the spans that a search for openers, clauses and quantifiers gives, and with
the spans of this library they come to what the readers of characters come to.
-/

namespace ReportMigration.Sql.Positions

open Text

/-- The breaks of a text lie one behind the other: the white space behind a comma ends in front of
the next comma. -/
private theorem spans_breaksFrom (front : List Char) (pieces : List (List Char)) :
    Spans (front ++ pieces.flatMap fun piece => ',' :: piece) (byteLength front)
      (Arguments.breaksFrom (byteLength front) pieces) := by
  induction pieces generalizing front with
  | nil => trivial
  | cons piece pieces ih =>
    obtain ⟨gap, hgap⟩ : ∃ gap, piece.takeWhile isBlank = gap := ⟨_, rfl⟩
    have hpiece : piece = gap ++ trimStart piece := by
      rw [← hgap]
      exact List.takeWhile_append_dropWhile.symm
    have hnext := ih (front ++ ',' :: piece)
    have htext : front ++ ',' :: piece ++ pieces.flatMap (fun piece => ',' :: piece) =
        front ++ (piece :: pieces).flatMap fun piece => ',' :: piece := by simp
    rw [htext, byteLength_comma] at hnext
    have hle : byteLength gap ≤ byteLength piece := by
      conv_rhs => rw [hpiece, byteLength_append]
      omega
    rw [Arguments.breaksFrom, hgap]
    refine ⟨le_rfl, by omega, boundary_append _ _, ?_, hnext.mono (by omega)⟩
    refine ⟨front ++ ',' :: gap, trimStart piece ++ pieces.flatMap fun piece => ',' :: piece, ?_,
      byteLength_comma front gap⟩
    conv_lhs => rw [List.flatMap_cons, hpiece]
    simp

theorem spans_breaks (text : List Char) : Spans text 0 (Arguments.breaks text) := by
  have h := spans_breaksFrom (Arguments.cut false 0 text).1 (Arguments.cut false 0 text).2
  rw [show _ ++ _ = text from Arguments.text_cut ⟨false, 0⟩ text] at h
  exact h.mono (Nat.zero_le _)

theorem lt_skipLiteral (front rest : List Char) :
    byteLength front < skipLiteral (front ++ '\'' :: rest) (byteLength front) ∧
      Boundary (front ++ '\'' :: rest) (skipLiteral (front ++ '\'' :: rest) (byteLength front)) := by
  rw [skipLiteral_eq]
  have hpos := byteLength_pos (List.cons_ne_nil '\'' (Literal.split rest).1)
  refine ⟨?_, front ++ '\'' :: (Literal.split rest).1, (Literal.split rest).2, ?_, rfl⟩
  · rw [byteLength_append]
    omega
  · rw [List.append_assoc, List.cons_append, Literal.split_append]

/-- No slice and no truncation fails. A slice is there exactly between boundaries in order, and
every reader that cuts succeeds:
* a literal ends behind its quote at a boundary;
* the arguments of a call and the breaks of a list are cut at their commas, and the breaks do not
  overlap;
* a call rule, whatever its function and transform, settles a text by any openers that lie one behind
  the other, turn after turn, and what it records on its stack stays in order and within the output;
* a statement is broken at any clauses that lie one behind the other, and the body of a select clause
  behind any quantifier.

The openers, clauses and quantifiers of this library are such spans, and by them the readers come to
what is read character by character. -/
theorem cuts_exist :
    (∀ text start stop, (slice text start stop).isSome = true ↔
      start ≤ stop ∧ Boundary text start ∧ Boundary text stop) ∧
    (∀ text length, (truncate text length).isSome = true ↔ Boundary text length) ∧
    (∀ front rest, byteLength front < skipLiteral (front ++ '\'' :: rest) (byteLength front) ∧
      Boundary (front ++ '\'' :: rest) (skipLiteral (front ++ '\'' :: rest) (byteLength front)) ∧
      skipLiteral (front ++ '\'' :: rest) (byteLength front) =
        Literal.endFrom (front ++ '\'' :: rest) (byteLength front)) ∧
    (∀ text, splitArguments text = some (Arguments.split text) ∧
      commaBreaks text = some (Arguments.breaks text) ∧ Spans text 0 (Arguments.breaks text)) ∧
    (∀ (rule : CallRule) (sql : List Char),
      (∀ openers, Spans sql 0 openers →
        (∃ outcome, applyAt rule openers sql = some outcome) ∧
        ∀ m, Reachable rule sql openers m → Ordered m ∧ Boundary sql m.position ∧
          (m.position < byteLength sql → ∃ next, m.turn rule sql = some next)) ∧
      Spans sql 0 (openersOf rule.function sql) ∧
      applyAt rule (openersOf rule.function sql) sql = some (rule.apply sql)) ∧
    (∀ find : List Char → Option ℕ, (∀ body stop, find body = some stop → Boundary body stop) →
      (∀ body, ∃ text, reflowAt find body = some text) ∧
      ∀ sql clauses, ClauseSpans sql 0 clauses → ∃ text, breakAt find clauses sql = some text) ∧
    (∀ body stop, quantifierEnd body = some stop → Boundary body stop) ∧
    (∀ body, reflowAt quantifierEnd body = some (Layout.reflow body)) ∧
    ∀ sql, ClauseSpans sql 0 (clauseSpans sql) ∧
      breakAt quantifierEnd (clauseSpans sql) sql = some (Layout.breakClauses sql) := by
  refine ⟨fun _ _ _ => slice_isSome_iff, fun text length => ?_, fun front rest => ?_, fun text => ?_,
    fun rule sql => ⟨fun openers hspans => ⟨exists_applyAt hspans, fun m hm => ?_⟩,
      spans_openersOf _ _, applyAt_openersOf _ _⟩,
    fun find hfind =>
      ⟨fun body => exists_reflowAt (hfind body), fun sql clauses => exists_breakAt hfind⟩,
    fun _ _ => boundary_quantifierEnd, reflowAt_quantifierEnd,
    fun sql => ⟨clauseSpans_spec sql, breakAt_clauseSpans sql⟩⟩
  · rw [truncate, Option.isSome_map, boundary_iff]
  · exact ⟨(lt_skipLiteral front rest).1, (lt_skipLiteral front rest).2,
      skipLiteral_eq_endFrom front rest⟩
  · exact ⟨splitArguments_eq text, commaBreaks_eq text, spans_breaks text⟩
  · have hsound := hm.sound hspans
    obtain ⟨s, htracks, -⟩ := hsound.tracks
    refine ⟨htracks.ordered, hsound.boundary, fun hmore => ?_⟩
    obtain ⟨next, hnext, -, -⟩ := hsound.turn rule hmore
    exact ⟨next, hnext⟩

end ReportMigration.Sql.Positions
