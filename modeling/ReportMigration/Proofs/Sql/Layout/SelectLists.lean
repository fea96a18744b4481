import ReportMigration.Proofs.Sql.Layout.LongRuns
import ReportMigration.Proofs.Sql.TopLevel

/-!
# Lists of a statement that is laid out

Behind a comma of a select list the clauses are broken with a new line. No later step takes the line feed
away: connectives and runs are read on either side of the comma, and what takes the place of one that
begins with this line feed begins with a line feed too. Trimming leaves all of the line, or nothing.
-/

namespace ReportMigration.Sql.Layout

open Text Scan

variable {front s text words x y : List Char}
  {after before segments : List (Segment (List Char))}

/-- What opens, closes and separates nothing does not count in front of a text. -/
theorem atTopLevel_inert (h : Inert front) : AtTopLevel (front ++ s) ↔ AtTopLevel s := by
  have hfront : tally front = ⟨false, 0, 0⟩ := Tally.read_neutral h.neutral _
  rw [atTopLevel_iff, atTopLevel_iff, tally_append, hfront]
  rfl

theorem ink_listed (p : Place) (x : List Char) : ink (listed p x) = ink x :=
  (respaced_listed p none rfl).ink_left

theorem listed_comma (h : AtTopLevel s) (t : List Char) : ∃ back,
    listed ⟨false, 0⟩ (s ++ ',' :: t) = listed ⟨false, 0⟩ s ++ ',' :: '\n' :: back := by
  obtain ⟨hq, hd⟩ := atTopLevel_iff.1 h
  have hcut : Arguments.cut false 0 (s ++ ',' :: t) =
      ((Arguments.cut false 0 s).1, (Arguments.cut false 0 s).2 ++ Arguments.pieces t) := by
    rw [Arguments.cut_append_tally, hq, hd, Arguments.cut_comma, Arguments.resume_comma]
  refine ⟨"    ".toList ++ (trimStart (Arguments.cut false 0 t).1 ++
    (Arguments.cut false 0 t).2.flatMap fun item => ',' :: indent ++ trimStart item), ?_⟩
  simp only [listed, hcut, Arguments.pieces, List.flatMap_append, List.flatMap_cons, List.append_assoc]
  rfl

theorem inert_quantifier (body : List Char) : Inert (cutQuantifier body).1 := by
  have hyields : Yields quantifier fun _ t => Inert t := by
    refine ((yields_run₁ _).bind fun _ => (yields_anyKeyword _).bind fun _ => yields_guard _).mono ?_
    rintro _ _ ⟨-, blanks, _, rfl, hblanks, -, word, _, rfl, ⟨w, hw, hword⟩, rfl⟩
    have hletters : ∀ w ∈ ["DISTINCT", "ALL"], Avoids separators w.toList := by
      decide
    have hspelled : Avoids separators word := Spells.avoids hword (hletters w hw)
    rw [List.append_nil]
    exact List.forall_mem_append.2 ⟨inert_of_isBlank hblanks, Avoids.inert hspelled⟩
  rw [cutQuantifier]
  split
  · next u n h => exact hyields _ _ _ h
  · exact fun c hc => by cases hc

theorem reflow_comma (h : AtTopLevel s) (t : List Char) :
    ∃ front back, reflow (s ++ ',' :: t) = front ++ ',' :: '\n' :: back ∧ ink front = ink s := by
  have hcut := cutQuantifier_append (s ++ ',' :: t)
  have hinert := inert_quantifier (s ++ ',' :: t)
  rw [reflow_eq]
  generalize (cutQuantifier (s ++ ',' :: t)).1 = q at hcut hinert
  generalize (cutQuantifier (s ++ ',' :: t)).2 = rest at hcut
  -- The quantifier stands in front of the comma.
  obtain ⟨u, rfl, rfl⟩ : ∃ u, s = q ++ u ∧ rest = u ++ ',' :: t := by
    rcases List.append_eq_append_iff.1 hcut with ⟨u, hs, hrest⟩ | ⟨u, hq, hrest⟩
    · exact ⟨u, hs, hrest⟩
    · cases u with
      | nil => exact ⟨[], by simpa using hq.symm, hrest.symm⟩
      | cons c u =>
        obtain ⟨rfl, -⟩ := List.cons.inj hrest
        exact absurd rfl (hinert ',' (by simp [hq])).2.2.2
  have hstart : trimStart (u ++ ',' :: t) = trimStart u ++ ',' :: t := trimStart_append (by rfl)
  have htop : AtTopLevel (trimStart u) := by
    rw [atTopLevel_inert hinert, ← gap_append_trimStart u] at h
    exact (atTopLevel_inert (inert_of_isBlank (all_gap u 0))).1 h
  obtain ⟨back, hback⟩ := listed_comma htop t
  have hlead : ∀ b : Prop, [Decidable b] → ink (if b then indent else []) = [] := by
    intro b _
    split <;> decide
  refine ⟨q ++ ((if (trimStart (u ++ ',' :: t)).length < (u ++ ',' :: t).length then indent else []) ++
    listed ⟨false, 0⟩ (trimStart u)), back, ?_, ?_⟩
  · rw [columns, hstart, hback]
    simp only [List.append_assoc]
  · simp only [ink_append, hlead, ink_listed, ink_trimStart, List.nil_append]

theorem yields_clauseStart :
    Yields clauseStart fun words text => ∃ gap, gap.all isBlank = true ∧ text = gap ++ words := by
  refine (((yields_guard _).bind fun _ => yields_clauseKeyword.written).orElse
    ((yields_run₁ _).bind fun _ => yields_clauseKeyword.written)).mono ?_
  rintro words _ (⟨-, gap, _, rfl, rfl, rfl, -⟩ | ⟨-, gap, _, rfl, hgap, rfl, -⟩)
  · exact ⟨[], rfl, rfl⟩
  · exact ⟨gap, hgap, rfl⟩

theorem ink_reflow (body : List Char) : ink (reflow body) = ink body :=
  (respaced_reflow none (.refl _ _ _)).ink_left

theorem ink_text (clause : Clause) : ink clause.text = ink clause.words ++ ink clause.body := by
  rw [Clause.text]
  split
  · rw [ink_append, ink_reflow]
  · rw [ink_append]

theorem ink_newLine (out : List Char) : ink (if out = [] then [] else out ++ ['\n']) = ink out := by
  split
  · next hout => rw [hout]
  · rw [ink_append, ink_blank (g := ['\n']) (by decide), List.append_nil]

theorem ink_writeClause (out : List Char) (clause : Clause) :
    ink (Positions.writeClause out clause) = ink out ++ (ink clause.words ++ ink clause.body) := by
  rw [Positions.writeClause, ink_append, ink_text, ink_newLine]

theorem clausesOf_hit (before after : List (Segment (List Char))) (text words : List Char) :
    clausesOf (before ++ .hit text words :: after) = ((clausesOf before).1,
      (clausesOf before).2 ++ ⟨words, (clausesOf after).1⟩ :: (clausesOf after).2) := by
  induction before with
  | nil => rfl
  | cons segment before ih =>
    cases segment with
    | plain c => rw [List.cons_append, clausesOf, clausesOf, ih]
    | hit text words => rw [List.cons_append, clausesOf, clausesOf, ih, List.cons_append]

theorem clausesOf_plain (body : List Char) (hafter : after.head?.all Segment.isHit = true) :
    clausesOf (body.map .plain ++ after) = (body, (clausesOf after).2) := by
  induction body with
  | nil =>
    rw [List.map_nil, List.nil_append]
    rcases after with _ | ⟨_ | _, after⟩
    · rfl
    · cases hafter
    · rfl
  | cons c body ih => rw [List.map_cons, List.cons_append, clausesOf, ih]

theorem ink_foldl_writeClause (clauses : List Clause) (out : List Char) :
    ink (clauses.foldl Positions.writeClause out) =
      ink out ++ clauses.flatMap fun clause => ink clause.words ++ ink clause.body := by
  induction clauses generalizing out with
  | nil => simp
  | cons clause clauses ih =>
    rw [List.foldl_cons, ih, ink_writeClause, List.flatMap_cons, List.append_assoc]

/-- Writing the clauses of a text keeps its characters other than white space. -/
theorem ink_written (h : ∀ text words, .hit text words ∈ segments → ink text = ink words) :
    ink ((clausesOf segments).2.foldl Positions.writeClause (clausesOf segments).1) =
      ink (segments.flatMap Segment.text) := by
  rw [ink_foldl_writeClause]
  induction segments with
  | nil => rfl
  | cons segment segments ih =>
    have hrest := ih fun text words hm => h text words (List.mem_cons_of_mem _ hm)
    rw [List.flatMap_cons, ink_append, ← hrest]
    cases segment with
    | plain c => rw [clausesOf, ← List.singleton_append, ink_append, List.append_assoc]; rfl
    | hit text words =>
      rw [clausesOf, ink_nil, List.nil_append, List.flatMap_cons, List.append_assoc, Segment.text,
        h text words List.mem_cons_self]

/-- In front of a comma at the top level of a select list stands this text. The list goes from the words
of its clause to the next clause that is found. -/
def ListComma (sql front : List Char) : Prop :=
  ∃ before text words list rest after, clauseStart.segments sql =
      before ++ .hit text words :: ((list ++ ',' :: rest).map .plain ++ after) ∧
    equalIgnoringAsciiCase words "SELECT".toList = true ∧ after.head?.all Segment.isHit = true ∧
    AtTopLevel list ∧ front = before.flatMap Segment.text ++ (text ++ list)

theorem ListComma.breakClauses {sql : List Char} (h : ListComma sql front) : ∃ first back,
    breakClauses sql = first ++ ',' :: '\n' :: back ∧ ink first = ink front := by
  obtain ⟨before, text, words, list, rest, after, hsegments, hwords, hafter, htop, rfl⟩ := h
  have hhit : ∀ text words, Segment.hit text words ∈ clauseStart.segments sql → ink text = ink words := by
    intro text words hm
    obtain ⟨gap, hgap, rfl⟩ := yields_clauseStart.mem_segmentsFrom 0 none sql hm
    rw [ink_append, ink_blank hgap, List.nil_append]
  rw [hsegments] at hhit
  obtain ⟨items, others, hreflow, hitems⟩ := reflow_comma htop rest
  have hlead : ink ((clausesOf before).2.foldl Positions.writeClause (clausesOf before).1) =
      ink (before.flatMap Segment.text) :=
    ink_written fun text words hm => hhit text words (List.mem_append_left _ hm)
  have htext := hhit text words (List.mem_append_right _ List.mem_cons_self)
  rw [Positions.breakClauses_eq, hsegments, clausesOf_hit, clausesOf_plain _ hafter, List.foldl_append,
    List.foldl_cons]
  generalize (clausesOf before).2.foldl Positions.writeClause (clausesOf before).1 = out at hlead
  have hwritten : Positions.writeClause out ⟨words, list ++ ',' :: rest⟩ =
      (if out = [] then [] else out ++ ['\n']) ++ (words ++ (items ++ ',' :: '\n' :: others)) := by
    rw [Positions.writeClause, Clause.text, if_pos hwords, hreflow]
  rw [hwritten, Positions.foldl_writeClause (by simp)]
  refine ⟨(if out = [] then [] else out ++ ['\n']) ++ (words ++ items),
    others ++ onNewLines (clausesOf after).2, by simp, ?_⟩
  rw [ink_append, ink_append, ink_append, ink_append, ink_newLine, hlead, htext, hitems]

theorem confined_connective : Confined ',' connective :=
  (Confined.run₁ (by decide)).bind fun _ =>
    (Confined.anyKeyword (by decide +kernel)).written.bind fun _ =>
      (Confined.run₁ (by decide)).bind fun _ => .pure _

theorem layOut_comma {sql : List Char} (h : breakClauses sql = x ++ ',' :: '\n' :: y) : ∃ first back,
    layOut sql = first ++ ',' :: back ∧ ink first = ink x ∧ (back = [] ∨ back.head? = some '\n') := by
  have hlinks : Yields connective fun a _ => a.head? = some '\n' := by
    refine yields_connective.mono ?_
    rintro _ _ ⟨_, _, _, -, rfl⟩
    rfl
  have hruns : Yields blankRun fun a _ => a.head? = some '\n' :=
    yields_blankRun.mono fun _ _ ha => ha ▸ rfl
  obtain ⟨z, hz⟩ := List.head?_eq_some_iff.1 (head?_substitute hlinks y)
  have hconnect : connective.substitute (breakClauses sql) =
      connective.substitute x ++ ',' :: '\n' :: z := by
    rw [h, confined_connective.substitute_append (by decide), hz]
  have hcut : blankRun.substitute (connective.substitute (breakClauses sql)) =
      blankRun.substitute (connective.substitute x) ++ ([','] ++ blankRun.substitute ('\n' :: z)) := by
    rw [hconnect, blankRuns_append (by decide)]
    rfl
  have hhead := head?_substitute hruns z
  have htrim := trim_append (blankRun.substitute (connective.substitute x))
    (blankRun.substitute ('\n' :: z)) (by decide : Tight [','])
  rw [← hcut] at htrim
  refine ⟨_, _, htrim, ?_, ?_⟩
  · rw [ink_trimStart, ink_blankRuns, (keepsTokens_connectives x).ink_eq]
  · have hstart := trimEnd_isPrefix (blankRun.substitute ('\n' :: z))
    cases hback : trimEnd (blankRun.substitute ('\n' :: z)) with
    | nil => exact .inl rfl
    | cons c back =>
      rw [hback] at hstart
      obtain ⟨tail, htail⟩ := hstart
      rw [← htail] at hhead
      exact .inr hhead

/-- What a statement looks like when it is laid out. -/
structure LaidOut (sql : List Char) : Prop where
  starts : ∀ c, (layOut sql).head? = some c → isBlank c = false
  ends : ∀ c, (layOut sql).getLast? = some c → isBlank c = false
  /-- Three line breaks follow each other exactly where, in white space that stays, a carriage return
  that ends no line stands between a line break and such a run. -/
  runs : LongRun (layOut sql) ↔ ∃ i, 0 < i ∧ i < (ink sql).length ∧
    gap (connective.substitute (breakClauses sql)) i = gap sql i ∧ Stray (gap sql i)
  /-- Each comma at the top level of a select list ends its line, or the text. -/
  items : ∀ front, ListComma sql front → ∃ first back, layOut sql = first ++ ',' :: back ∧
    ink first = ink front ∧ (back = [] ∨ back.head? = some '\n')

theorem layOut_eq_nil_or_tight (sql : List Char) : layOut sql = [] ∨ Tight (layOut sql) :=
  trim_eq_nil_or_tight _

theorem laidOut (sql : List Char) : LaidOut sql where
  starts c hc := by
    rcases layOut_eq_nil_or_tight sql with hnil | htight
    · simp [hnil] at hc
    · simpa [hc] using htight.1
  ends c hc := by
    rcases layOut_eq_nil_or_tight sql with hnil | htight
    · simp [hnil] at hc
    · simpa [hc] using htight.2
  runs := longRun_layOut_iff sql
  items front h := by
    obtain ⟨x, y, hbreak, hx⟩ := h.breakClauses
    obtain ⟨first, back, hlaid, hfirst, hback⟩ := layOut_comma hbreak
    exact ⟨first, back, hlaid, hfirst.trans hx, hback⟩

example : ListComma "SELECT f(a, b),c FROM t".toList "SELECT f(a, b)".toList :=
  ⟨[], "SELECT".toList, "SELECT".toList, " f(a, b)".toList, "c".toList,
    [.hit " FROM".toList "FROM".toList, .plain ' ', .plain 't'], by cbv, by decide, rfl,
    by decide +kernel, rfl⟩

/-- The line breaks behind the carriage return are cut down to two, the first of which it ends. -/
theorem longRun_layOut_return : LongRun (layOut "a\n \r \n\n\nb".toList) := by
  have hlaid : layOut "a\n \r \n\n\nb".toList = "a\n \r\n\nb".toList := by decide +kernel
  rw [hlaid]
  exact ⟨"\n \r\n\n".toList, ⟨['\n'], " \r\n".toList, ['\n'], rfl, ⟨[], rfl, .inl rfl⟩,
    ⟨[' '], rfl, .inr rfl⟩, ⟨[], rfl, .inl rfl⟩⟩, ['a'], ['b'], rfl⟩

end ReportMigration.Sql.Layout
