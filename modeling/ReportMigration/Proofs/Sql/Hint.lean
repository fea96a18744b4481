import ReportMigration.Proofs.Sql.Leftover

/-!
# Isolation hints behind other rules

A text ends with an isolation hint or it does not, and no rule behind the one that takes the hint
away changes that: what they put into a text ends where no hint begins, and so does what they take
out of it.
-/

namespace ReportMigration.Sql

open Text Scan

/-- The text begins with an isolation hint, behind which nothing stands. -/
def Hint (text : List Char) : Prop :=
  ∃ meaning n, isolationHint ⟨none, text⟩ = some (meaning, n + 1)

theorem isolationHint_beside (before : Option Char) (text : List Char) :
    isolationHint ⟨before, text⟩ = isolationHint ⟨none, text⟩ := by
  have hsame : blanks₁ ⟨before, text⟩ = blanks₁ ⟨none, text⟩ := rfl
  rw [isolationHint, bind_apply, bind_apply, hsame]
  cases h : blanks₁ ⟨none, text⟩ with
  | none => rfl
  | some r =>
    obtain ⟨u, n⟩ := r
    obtain ⟨hn, hpos⟩ := run₁_eq_some.1 h
    have hle : n ≤ text.length := hn ▸ (List.takeWhile_sublist isBlank).length_le
    have hne : text.take n ≠ [] := List.ne_nil_of_length_pos (by rw [List.length_take]; omega)
    have hadvance : Cursor.advance ⟨before, text⟩ n = Cursor.advance ⟨none, text⟩ n := by
      simp [Cursor.advance, List.getLast?_eq_some_getLast hne]
    simp only [Option.bind_some, hadvance]

/-- What a hint looks like: white space and a W in front of all else, no E in it, and nothing that
opens, closes or separates anything. -/
theorem Hint.spec {text : List Char} (h : Hint text) : Avoids ('e' :: separators) text ∧
    ∃ blanks c rest, text = blanks ++ c :: rest ∧ blanks ≠ [] ∧ blanks.all isBlank = true ∧
      foldCase c = 'w' := by
  obtain ⟨meaning, n, h⟩ := h
  have hend := reaches_isolationHint _ _ _ h
  have havoids := yields_isolationHint_letters _ _ _ h
  simp only [Cursor.advance, List.isEmpty_iff, List.drop_eq_nil_iff] at hend
  rw [List.take_of_length_le hend] at havoids
  refine ⟨havoids, ?_⟩
  obtain ⟨_, k, _, hblanks, hnext, -⟩ := bind_eq_some.1 h
  obtain ⟨_, _, _, hword, -, -⟩ := bind_eq_some.1 hnext
  obtain ⟨hk, hpos⟩ := run₁_eq_some.1 hblanks
  obtain ⟨hword, -⟩ := letters_eq_some.1 hword
  have hsplit := List.take_append_drop k text
  have hall : (text.take k).all isBlank = true := yields_run₁ isBlank _ _ _ hblanks
  cases hrest : text.drop k with
  | nil =>
    simp only [Cursor.advance, hrest] at hword
    cases hword
  | cons c rest =>
    simp only [Cursor.advance, hrest] at hword
    refine ⟨text.take k, c, rest, by rw [← hrest, hsplit], ?_, hall, (List.cons.inj hword).1⟩
    have hle : k ≤ text.length := hk ▸ (List.takeWhile_sublist isBlank).length_le
    exact List.ne_nil_of_length_pos (by rw [List.length_take]; omega)

theorem occurs_isolationHint {text : List Char} :
    isolationHint.occurs text = true ↔ ∃ front hint, text = front ++ hint ∧ Hint hint := by
  have hsegments : ∀ (text : List Char) (before : Option Char),
      (segmentsFrom isolationHint 0 before text).any Segment.isHit = true ↔
        ∃ front hint, text = front ++ hint ∧ Hint hint := by
    intro text
    induction text with
    | nil =>
      intro before
      refine iff_of_false (by simp [segmentsFrom]) ?_
      rintro ⟨front, hint, he, h⟩
      obtain ⟨-, blanks, c, rest, rfl, -⟩ := h.spec
      simp at he
    | cons x text ih =>
      intro before
      by_cases hit : Hint (x :: text)
      · refine iff_of_true ?_ ⟨[], _, rfl, hit⟩
        obtain ⟨meaning, n, hit⟩ := hit
        rw [← isolationHint_beside before] at hit
        rw [segmentsFrom_hit hit]
        rfl
      · have hplain : ∀ a n, isolationHint ⟨before, x :: text⟩ ≠ some (a, n + 1) :=
          fun a n he => hit ⟨a, n, isolationHint_beside before _ ▸ he⟩
        rw [segmentsFrom_plain hplain, List.any_cons, Segment.isHit, Bool.false_or, ih]
        constructor
        · rintro ⟨front, hint, rfl, h⟩
          exact ⟨x :: front, hint, rfl, h⟩
        · rintro ⟨front, hint, he, h⟩
          cases front with
          | nil => exact absurd (he ▸ h) hit
          | cons y front => exact ⟨front, hint, (List.cons.inj he).2, h⟩
  exact hsegments text none

/-- No hint begins in the text, whatever follows it. -/
def Hintless (text : List Char) : Prop :=
  ∀ front rest, text = front ++ rest → rest ≠ [] → ∀ back, ¬ Hint (rest ++ back)

theorem Hintless.occurs {text : List Char} (h : Hintless text) (back : List Char) :
    isolationHint.occurs (text ++ back) = isolationHint.occurs back := by
  rw [Bool.eq_iff_iff, occurs_isolationHint, occurs_isolationHint]
  constructor
  · rintro ⟨front, hint, he, hhint⟩
    rcases List.append_eq_append_iff.1 he with ⟨rest, rfl, rfl⟩ | ⟨rest, rfl, rfl⟩
    · exact ⟨rest, hint, rfl, hhint⟩
    · by_cases hne : rest = []
      · exact ⟨[], back, rfl, by simpa [hne] using hhint⟩
      · exact absurd hhint (h front rest rfl hne back)
  · rintro ⟨front, hint, rfl, hhint⟩
    exact ⟨text ++ front, hint, by simp, hhint⟩

theorem Hint.isBlank_head {text : List Char} (h : Hint text) : text.head?.any isBlank = true := by
  obtain ⟨-, blanks, c, rest, rfl, hne, hall, -⟩ := h.spec
  cases blanks with
  | nil => exact absurd rfl hne
  | cons b blanks => exact (Bool.and_eq_true_iff.1 hall).1

theorem Hint.notMem {text : List Char} (h : Hint text) {d : Char} (hd : d ∈ separators) :
    d ∉ text := by
  intro hm
  refine h.spec.1 d hm (List.mem_cons_of_mem _ ?_)
  simp only [separators, List.mem_cons, List.not_mem_nil, or_false] at hd
  rcases hd with rfl | rfl | rfl | rfl <;> decide

/-- No hint goes over a character that it does not hold, or begins with one that is not white
space. -/
theorem hintless_of_mem {d : Char} (hd : d ∈ separators) (text : List Char) {tail : List Char}
    (htail : ∀ c ∈ tail, isBlank c = false) : Hintless (text ++ d :: tail) := by
  intro front rest he hne back hhint
  have hmem : d ∉ rest := fun hm => hhint.notMem hd (List.mem_append_left _ hm)
  rcases List.append_eq_append_iff.1 he with ⟨middle, -, hmiddle⟩ | ⟨middle, -, rfl⟩
  · cases middle with
    | nil => exact hmem ((List.nil_append rest ▸ hmiddle) ▸ List.mem_cons_self)
    | cons x middle =>
      obtain ⟨-, rfl⟩ := List.cons.inj hmiddle
      cases rest with
      | nil => exact hne rfl
      | cons c rest => simpa [htail c (by simp)] using hhint.isBlank_head
  · exact hmem (by simp)

/-- No hint goes over a text with an E in it, or begins in one without a W whose end is not white
space. -/
theorem hintless_of_avoids {hit : List Char} (hw : Avoids ['w'] hit)
    (hlast : hit.getLast?.any isWord = true) (he : ∃ c ∈ hit, foldCase c = 'e') (text : List Char) :
    Hintless (text ++ hit) := by
  intro front rest hsplit hne back hhint
  obtain ⟨havoids, blanks, c, more, hstart, -, hall, hc⟩ := hhint.spec
  rcases List.append_eq_append_iff.1 hsplit with ⟨middle, -, rfl⟩ | ⟨middle, -, rfl⟩
  · -- The hint would begin in the hit, and its W would stand there.
    obtain ⟨d, hd⟩ : ∃ d, rest.getLast? = some d := ⟨_, List.getLast?_eq_some_getLast hne⟩
    have hword : isWord d = true := by
      rw [List.getLast?_append, hd] at hlast
      exact hlast
    have hdm : d ∈ rest := List.mem_of_getLast? hd
    rcases List.append_eq_append_iff.1 hstart with ⟨inner, rfl, -⟩ | ⟨inner, rfl, hinner⟩
    · have hb := List.all_eq_true.1 hall d (List.mem_append_left _ hdm)
      exact absurd (isBlank_of_isWord hword) (by simp [hb])
    · cases inner with
      | nil =>
        have hb := List.all_eq_true.1 hall d (by simpa using hdm)
        exact absurd (isBlank_of_isWord hword) (by simp [hb])
      | cons x inner =>
        obtain ⟨rfl, -⟩ := List.cons.inj hinner
        exact hw c (by simp) (by simp [hc])
  · obtain ⟨c, hm, hc⟩ := he
    exact havoids c (by simp [hm]) (by simp [hc])

theorem Phrasal.occurs_hint {p : Scan (List Char)} (hp : Phrasal p)
    (hy : Yields p fun meaning hit =>
      (∀ text, Hintless (text ++ hit)) ∧ ∀ text, Hintless (text ++ meaning)) (text : List Char) :
    isolationHint.occurs (p.substitute text) = isolationHint.occurs text := by
  have hsubstitutes : ∀ {before text out}, Substitutes p before text out →
      isolationHint.occurs out = isolationHint.occurs text := by
    intro before text out hr
    induction hr with
    | nowhere => rfl
    | @first before front hit back meaning out _ hread _ _ ih =>
      obtain ⟨hhit, hmeaning⟩ := hy _ _ _ hread
      rw [List.take_left] at hhit
      rw [← List.append_assoc, (hmeaning front).occurs, ih, ← (hhit front).occurs back,
        List.append_assoc]
  exact hsubstitutes (hp.substitutes text)

private theorem exists_e_of_spells {word : String} {part hit : List Char} (h : Spells word part)
    (hw : 'e' ∈ word.toList.map foldCase) (hpart : part ⊆ hit) : ∃ c ∈ hit, foldCase c = 'e' := by
  obtain ⟨c, hm, hc⟩ := List.mem_map.1 (h ▸ hw : 'e' ∈ part.map foldCase)
  exact ⟨c, hpart hm, hc⟩

private theorem yields_offset_hintless {p : Scan (List Char)} (hp : Phrasal p)
    (hy : Yields p fun a t => ∃ o : Offset, o.Valid ∧ t = o.phrase ∧ a = o.meaning) :
    Yields p fun meaning hit =>
      (∀ text, Hintless (text ++ hit)) ∧ ∀ text, Hintless (text ++ meaning) := by
  intro c a n h
  obtain ⟨o, ho, ht, rfl⟩ := hy c a n h
  have hlast := (hp.phrase c _ n h).last
  rw [ht] at hlast ⊢
  have hcurrent : o.current ⊆ o.phrase := fun c hc => by simp [Offset.phrase, hc]
  have he := exists_e_of_spells ho.current (by decide) hcurrent
  refine ⟨hintless_of_avoids ho.worded.spares hlast he, fun text => ?_⟩
  -- What takes the place of an offset ends with a quote.
  rw [Offset.meaning_eq]
  have hquote : Hintless ((text ++ (offsetLead o.sign ++ '\'' ::
      (o.count ++ ' ' :: o.unit.map asciiLower))) ++ '\'' :: []) :=
    hintless_of_mem (by decide) _ (by simp)
  simpa using hquote

private theorem yields_currentTimestamp_hintless : Yields currentTimestamp fun meaning hit =>
    (∀ text, Hintless (text ++ hit)) ∧ ∀ text, Hintless (text ++ meaning) := by
  intro c a n h
  have hlast := (phrasal_currentTimestamp.phrase c a n h).last
  have hspares := (yields_currentTimestamp_worded c a n h).spares
  obtain ⟨cur, gap, ts, ht, hcur, -, -, rfl⟩ := yields_currentTimestamp c a n h
  have hpart : cur ⊆ c.ahead.take n := ht ▸ List.subset_append_left _ _
  have he := exists_e_of_spells hcur (by decide) hpart
  refine ⟨hintless_of_avoids hspares hlast he, fun text => ?_⟩
  have hnow : text ++ "now()".toList = (text ++ ['n', 'o', 'w', '(']) ++ ')' :: [] := by simp
  rw [hnow]
  exact hintless_of_mem (by decide) _ (by simp)

theorem occurs_hint_earlierPatterns : ∀ rule ∈ earlierPatterns, ∀ text,
    isolationHint.occurs (rule.pattern.substitute text) = isolationHint.occurs text := by
  simp only [earlierPatterns, List.forall_mem_cons, List.not_mem_nil, false_imp_iff, implies_true,
    and_true]
  exact ⟨phrasal_signFoldedOffset.occurs_hint
      (yields_offset_hintless phrasal_signFoldedOffset yields_signFoldedOffset),
    phrasal_dateOffset.occurs_hint (yields_offset_hintless phrasal_dateOffset yields_dateOffset),
    phrasal_currentTimestamp.occurs_hint yields_currentTimestamp_hintless⟩

/-- Every replacement ends with a parenthesis and no white space behind it. -/
def Shuts (transform : List (List Char) → Option (List Char)) : Prop :=
  ∀ {args text}, transform args = some text →
    ∃ body tail, text = body ++ ')' :: tail ∧ ∀ c ∈ tail, isBlank c = false

theorem CallRule.Replaces.occurs_hint {rule : CallRule} (hs : Shuts rule.transform)
    {text next : List Char} (h : rule.Replaces text next) :
    isolationHint.occurs next = isolationHint.occurs text := by
  obtain @⟨front, o, inside, text, -, -, -, -, hsome, back⟩ := h
  obtain ⟨body, tail, rfl, htail⟩ := hs hsome
  have hafter := (hintless_of_mem (d := ')') (by decide) (front ++ body) htail).occurs back
  have hcall : Hintless ((front ++ (o ++ inside)) ++ ')' :: []) :=
    hintless_of_mem (by decide) _ (by simp)
  have hbefore := hcall.occurs back
  simp only [List.append_assoc, List.cons_append, List.nil_append] at hafter hbefore ⊢
  rw [hafter, hbefore]

theorem shuts_around {first last : String} (gap tail : List Char)
    (hlast : last.toList = gap ++ ')' :: tail) (htail : tail.any isBlank = false) :
    Shuts (around first last) := by
  intro args text h
  obtain ⟨expr, -, -, rfl⟩ := around_eq_some.1 h
  exact ⟨first.toList ++ expr ++ gap, tail, by simp [hlast], by simpa using htail⟩

theorem shuts_standardCalls : ∀ rule ∈ standardCalls, Shuts rule.transform := by
  have hcast : ∀ {first last : String} (gap : List Char), last.toList = gap ++ [')'] →
      Shuts (around first last) := fun gap hlast => shuts_around gap [] hlast rfl
  simp only [standardCalls, List.forall_mem_cons, List.not_mem_nil, false_imp_iff, implies_true,
    and_true]
  refine ⟨shuts_around [] "::date".toList rfl (by decide),
    shuts_around [] "::timestamp".toList rfl (by decide),
    hcast " AS integer".toList rfl, hcast " AS bigint".toList rfl,
    hcast " AS double precision".toList rfl, ?_, ?_, ?_, hcast " AS char".toList rfl⟩
  · intro args text h
    obtain ⟨expr, precision, scale, -, -, -, -, rfl⟩ := decimalCast_eq_some.1 h
    have hends : "))".toList = [')', ')'] := rfl
    exact ⟨"CAST(".toList ++ expr ++ (" AS numeric(".toList ++ precision ++ [','] ++ scale ++ [')']),
      [], by rw [hends]; simp only [List.append_assoc, List.cons_append, List.nil_append], by simp⟩
  · intro args text h
    obtain ⟨expr, format, -, -, -, rfl⟩ := formatCall_eq_some.1 h
    exact ⟨"to_char(".toList ++ expr ++ (", ".toList ++ format), [],
      by simp only [List.append_assoc], by simp⟩
  · intro args text h
    obtain ⟨expr, -, -, -, rfl⟩ := charOfDate_eq_some.1 h
    exact ⟨"to_char(".toList ++ expr ++ ", 'YYYY-MM-DD'".toList, [],
      by rw [List.append_assoc, List.append_assoc, List.append_assoc]; rfl, by simp⟩

theorem occurs_hint_standardCalls {rule : CallRule} (h : rule ∈ standardCalls) (text : List Char) :
    isolationHint.occurs (rule.output text) = isolationHint.occurs text := by
  obtain ⟨htidy, hnamed⟩ := tidy_standardCalls rule h
  exact (CallRule.rewrites_output htidy hnamed text).invariant
    (P := fun next => isolationHint.occurs next = isolationHint.occurs text)
    (fun hstep ht => (hstep.occurs_hint (shuts_standardCalls rule h)).trans ht) rfl

end ReportMigration.Sql
