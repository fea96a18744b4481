import ReportMigration.Proofs.Sql.Standard

/-!
# Mentions of a date or a timestamp

Which of the rules in front of the rules of `CHAR` change what a text mentions. The words `CURRENT
TIMESTAMP` are a mention, and what takes their place is none; a call of `TIMESTAMP` that is not
spelled in ASCII is none, and what takes its place is one. No other rule adds a mention or takes the
last one away.
-/

namespace ReportMigration.Sql

open Text Scan

variable {word : List Char}

/-- Texts in front of an argument and behind it that mention nothing, and across whose ends no word
goes. -/
structure Fences (word first last : List Char) : Prop where
  opens : ¬ Mentions word first ∧ first.getLast?.any isWord = false
  closes : ¬ Mentions word last ∧ last.head?.any isWord = false
  behind : last.getLast?.any (fun c => !word.contains (asciiLower c)) = true

theorem Fences.mentions {first last : List Char} (h : Fences word first last) (hw : Named word)
    (expr back : List Char) : Mentions word (first ++ expr ++ last ++ back) ↔
      Mentions word expr ∨ Mentions word back := by
  obtain ⟨d, hl, hd⟩ := (Option.any_eq_true _ _).1 h.behind
  have hlast : ∀ c, (first ++ expr ++ last).getLast? = some c → asciiLower c ∉ word := by
    intro c hc
    obtain rfl : d = c := by simpa [hl] using hc
    simpa using hd
  rw [mentions_append_of_last hlast, mentions_append_of_head_isWord hw h.closes.2,
    mentions_append_of_last_isWord hw h.opens.2]
  simp [h.opens.1, h.closes.1]

theorem faithful_around {first last : String} (hw : Named word)
    (h : Fences word first.toList last.toList) : Faithful word (around first last) := by
  intro args text ht back
  obtain ⟨expr, rfl, -, rfl⟩ := around_eq_some.1 ht
  rw [h.mentions hw]
  simp

theorem faithful_decimalCast (hw : Named word)
    (h : Fences word "CAST(".toList " AS numeric(".toList) : Faithful word decimalCast := by
  intro args text ht back
  obtain ⟨expr, precision, scale, rfl, -, -, -, rfl⟩ := decimalCast_eq_some.1 ht
  have hm := h.mentions hw expr (precision ++ ',' :: (scale ++ ')' :: ([] ++ ')' :: back)))
  rw [mentions_cons hw (by decide), mentions_cons hw (by decide), mentions_cons hw (by decide)] at hm
  have hnil : ¬ Mentions word ([] : List Char) := not_mentions_of_isWord hw (by simp)
  have he : "CAST(".toList ++ expr ++ (" AS numeric(".toList ++ precision ++ [','] ++ scale
      ++ "))".toList) ++ back = "CAST(".toList ++ expr ++ " AS numeric(".toList ++
        (precision ++ ',' :: (scale ++ ')' :: ([] ++ ')' :: back))) := by
    rw [show "))".toList = [')', ')'] from rfl]
    simp only [List.append_assoc, List.cons_append, List.nil_append]
  rw [he, hm]
  simp [hnil, or_assoc]

theorem faithful_formatCall (hw : Named word) (h : Fences word "to_char(".toList ", ".toList) :
    Faithful word formatCall := by
  intro args text ht back
  obtain ⟨expr, format, rfl, -, -, rfl⟩ := formatCall_eq_some.1 ht
  have hm := h.mentions hw expr (format ++ ')' :: back)
  rw [mentions_cons hw (by decide)] at hm
  have he : "to_char(".toList ++ expr ++ (", ".toList ++ format ++ [')']) ++ back =
      "to_char(".toList ++ expr ++ ", ".toList ++ (format ++ ')' :: back) := by
    simp only [List.append_assoc, List.cons_append, List.nil_append]
  rw [he, hm]
  simp [or_assoc]

theorem charOfDate_eq_some {args : List (List Char)} {text : List Char} :
    charOfDate args = some text ↔ ∃ expr, args = [expr] ∧ expr ≠ [] ∧
      mentionsTemporal expr = true ∧
      text = "to_char(".toList ++ expr ++ ", 'YYYY-MM-DD')".toList := by
  simp only [charOfDate, Option.bind_eq_some_iff, Option.filter_eq_some_iff, single_eq_some,
    around_eq_some]
  constructor
  · rintro ⟨expr, ⟨⟨rfl, hne⟩, hm⟩, _, he, -, rfl⟩
    obtain rfl := List.singleton_inj.1 he
    exact ⟨expr, rfl, hne, hm, rfl⟩
  · rintro ⟨expr, rfl, hne, hm, rfl⟩
    exact ⟨expr, ⟨⟨rfl, hne⟩, hm⟩, expr, rfl, hne, rfl⟩

theorem faithful_charOfDate (hw : Named word)
    (h : Fences word "to_char(".toList ", 'YYYY-MM-DD')".toList) : Faithful word charOfDate := by
  intro args text ht back
  obtain ⟨expr, rfl, -, -, rfl⟩ := charOfDate_eq_some.1 ht
  rw [h.mentions hw]
  simp

private theorem named_date : Named "date".toList := by decide

private theorem named_timestamp : Named "timestamp".toList := by decide

private theorem mentions_of_spells_date {text : List Char} (h : Spells "DATE" text) :
    Mentions "date".toList text := by
  have hl := h.map_asciiLower (by decide) (h.notMem (by decide)) (h.notMem (by decide))
  rw [Mentions, hl]
  exact List.infix_refl _

private theorem Offset.Valid.mentions_phrase {o : Offset} (h : o.Valid) :
    Mentions "date".toList o.phrase :=
  (mentions_of_spells_date h.date).mono
    ⟨o.current ++ o.gap, o.signs ++ (o.count ++ (o.space ++ (o.unit ++ o.plural))),
      by simp [Offset.phrase]⟩

private theorem Offset.mentions_meaning (o : Offset) : Mentions "date".toList o.meaning := by
  have hm : Mentions "date".toList "current_date ".toList := by decide
  unfold Offset.meaning intervalOffset
  exact hm.mono ⟨[], _, by simp only [List.nil_append, List.append_assoc]; rfl⟩

private theorem yields_signFoldedOffset_date : Yields signFoldedOffset fun meaning hit =>
    Mentions "date".toList meaning ∧ Mentions "date".toList hit :=
  yields_signFoldedOffset.mono fun _ _ ⟨o, ho, ht, ha⟩ =>
    ht ▸ ha ▸ ⟨o.mentions_meaning, ho.mentions_phrase⟩

private theorem yields_dateOffset_date : Yields dateOffset fun meaning hit =>
    Mentions "date".toList meaning ∧ Mentions "date".toList hit :=
  yields_dateOffset.mono fun _ _ ⟨o, ho, ht, ha⟩ =>
    ht ▸ ha ▸ ⟨o.mentions_meaning, ho.mentions_phrase⟩

private theorem yields_currentTimestamp_date : Yields currentTimestamp fun meaning hit =>
    (Mentions "date".toList meaning ↔ Mentions "date".toList hit) := by
  refine yields_currentTimestamp.mono ?_
  rintro a t ⟨cur, gap, ts, rfl, hcur, hgap, hts, rfl⟩
  have hd : Avoids ['d'] (cur ++ (gap ++ ts)) := (hcur.avoids (by decide)).append
    ((avoids_of_all (by decide) hgap).append (hts.avoids (by decide)))
  have hnot : ¬ Mentions "date".toList (cur ++ (gap ++ ts)) := fun h =>
    hd.notMem_map_asciiLower (d := 'd') (by decide) (by decide) (h.subset (by decide))
  have hnow : ¬ Mentions "date".toList "now()".toList := by decide
  exact iff_of_false hnow hnot

private theorem mentions_signFoldedOffset (text : List Char) :
    Mentions "date".toList (signFoldedOffset.substitute text) ↔ Mentions "date".toList text :=
  phrasal_signFoldedOffset.mentions_substitute named_date
    (yields_signFoldedOffset_date.mono fun _ _ h => iff_of_true h.1 h.2) text

private theorem mentions_dateOffset (text : List Char) :
    Mentions "date".toList (dateOffset.substitute text) ↔ Mentions "date".toList text :=
  phrasal_dateOffset.mentions_substitute named_date
    (yields_dateOffset_date.mono fun _ _ h => iff_of_true h.1 h.2) text

private theorem mentions_currentTimestamp (text : List Char) :
    Mentions "date".toList (currentTimestamp.substitute text) ↔ Mentions "date".toList text :=
  phrasal_currentTimestamp.mentions_substitute named_date yields_currentTimestamp_date text

/-- A pattern whose phrases mention a word occurs in no text without the word. -/
theorem substitute_eq_self_of_not_mentions {p : Scan (List Char)}
    (hp : Yields p fun _ hit => Mentions word hit) {text : List Char} (ht : ¬ Mentions word text) :
    p.substitute text = text := by
  refine substitute_eq_self (Bool.eq_false_iff.2 fun ho => ?_)
  obtain ⟨s, hs, hhit⟩ := List.any_eq_true.1 ho
  cases s with
  | plain c => cases hhit
  | hit t m => exact ht ((hp.mem_segmentsFrom 0 none text hs).mono (infix_of_mem_segments hs))

/-- The patterns behind the isolation hint. -/
def earlierPatterns : List PatternRule :=
  [signFoldedOffsetRule, dateOffsetRule, currentTimestampRule]

/-- The calls of no date and no character. -/
def otherCalls : List CallRule :=
  [integerCastRule, bigintCastRule, doubleCastRule, decimalCastRule, varcharFormatRule]

/-- The calls of other functions than `CHAR`. -/
def earlierCalls : List CallRule :=
  dateCastRule :: timestampCastRule :: otherCalls

/-- The rules between the isolation hint and the rules of `CHAR`. -/
def earlierRules : List Rule :=
  earlierPatterns.map .pattern ++ earlierCalls.map .call

theorem phrasal_earlierPatterns : ∀ rule ∈ earlierPatterns, Phrasal rule.pattern := by
  simp only [earlierPatterns, List.forall_mem_cons, List.not_mem_nil, false_imp_iff, implies_true,
    and_true]
  exact ⟨phrasal_signFoldedOffset, phrasal_dateOffset, phrasal_currentTimestamp⟩

theorem steady_earlierCalls : ∀ rule ∈ earlierCalls,
    rule.Steady ∧ Apart rule.function "CHAR".toList := by
  simp only [earlierCalls, otherCalls, List.forall_mem_cons, List.not_mem_nil, false_imp_iff, implies_true,
    and_true]
  exact ⟨⟨steady_dateCast, by decide⟩, ⟨steady_timestampCast, by decide⟩,
    ⟨steady_integerCast, by decide⟩, ⟨steady_bigintCast, by decide⟩, ⟨steady_doubleCast, by decide⟩,
    ⟨steady_decimalCast, by decide⟩, ⟨steady_varcharFormat, by decide⟩⟩

theorem settles_earlierRules : ∀ rule ∈ earlierRules, rule.Settles := by
  intro rule hm
  rcases List.mem_append.1 hm with hm | hm
  · obtain ⟨p, hp, rfl⟩ := List.mem_map.1 hm
    exact .pattern (phrasal_earlierPatterns p hp)
  · obtain ⟨p, hp, rfl⟩ := List.mem_map.1 hm
    exact .call (steady_earlierCalls p hp).1

/-- Calls between texts that mention nothing leave a text with a word or without it. -/
theorem mentions_rewriteBy {rules : List CallRule} (hw : Named word)
    (h : ∀ rule ∈ rules, rule.Steady ∧ ¬ word <:+: rule.function.map foldCase ∧
      Faithful word rule.transform) {text : List Char} (ht : Closed text) :
    Mentions word (rewriteBy (rules.map .call) text) ↔ Mentions word text := by
  induction rules generalizing text with
  | nil => rfl
  | cons rule rules ih =>
    obtain ⟨⟨hrule, hname, hfaithful⟩, hrules⟩ := List.forall_mem_cons.1 h
    have hc := CallRule.closed_output hrule.tidy hrule.named ht
    rw [List.map_cons, rewriteBy_cons, Rule.output_call hrule.named, ih hrules hc,
      CallRule.mentions_output hw hrule.named hname hfaithful ht]

private theorem faithful_otherCalls (hword : word = "date".toList ∨ word = "timestamp".toList) :
    ∀ rule ∈ otherCalls, rule.Steady ∧ ¬ word <:+: rule.function.map foldCase ∧
      Faithful word rule.transform := by
  have hw : Named word := by rcases hword with rfl | rfl <;> decide
  simp only [otherCalls, List.forall_mem_cons, List.not_mem_nil, false_imp_iff, implies_true,
    and_true]
  refine ⟨⟨steady_integerCast, ?_, faithful_around hw ?_⟩,
    ⟨steady_bigintCast, ?_, faithful_around hw ?_⟩, ⟨steady_doubleCast, ?_, faithful_around hw ?_⟩,
    ⟨steady_decimalCast, ?_, faithful_decimalCast hw ?_⟩,
    ⟨steady_varcharFormat, ?_, faithful_formatCall hw ?_⟩⟩
  all_goals rcases hword with rfl | rfl
  all_goals first
    | exact ⟨by decide, by decide, by decide⟩
    | decide

private theorem mentions_opens_date {o : List Char} (ho : Opens "DATE".toList o) :
    Mentions "date".toList o := by
  obtain ⟨name, blanks, rfl, hn, -⟩ := ho
  exact (mentions_of_spells_date hn).mono ⟨[], blanks ++ ['('], by simp⟩

private theorem mentions_around {first last : String} (h : Mentions word last.toList) :
    ∀ args text, around first last args = some text → Mentions word text := by
  intro args text ht
  obtain ⟨expr, -, -, rfl⟩ := around_eq_some.1 ht
  exact h.mono ⟨first.toList ++ expr, [], by simp⟩

private theorem output_dateCast {text : List Char} (h : Closed text) :
    Mentions "date".toList (dateCastRule.output text) ∧ Mentions "date".toList text ∨
      dateCastRule.output text = text := by
  have hlast : Mentions "date".toList ")::date".toList := by decide
  exact (CallRule.mentions_output_or_eq steady_dateCast.named (mentions_around hlast) h).imp_left
    fun ⟨hout, hin⟩ => ⟨hout, hin fun o ho _ => mentions_opens_date ho⟩

private theorem mentions_dateCast {text : List Char} (h : Closed text) :
    Mentions "date".toList (dateCastRule.output text) ↔ Mentions "date".toList text := by
  rcases output_dateCast h with ⟨hout, hin⟩ | he
  · exact iff_of_true hout hin
  · rw [he]

private theorem output_dateCast_of_not_mentions {text : List Char} (h : Closed text)
    (hm : ¬ Mentions "date".toList text) : dateCastRule.output text = text := by
  rcases output_dateCast h with ⟨-, hin⟩ | he
  · exact absurd hin hm
  · exact he

private theorem mentions_timestampCast {text : List Char} (h : Closed text) :
    Mentions "date".toList (timestampCastRule.output text) ↔ Mentions "date".toList text := by
  refine CallRule.mentions_output named_date steady_timestampCast.named (by decide)
    (faithful_around named_date ?_) h
  exact ⟨by decide, by decide, by decide⟩

theorem mentionsTemporal_congr {s t : List Char}
    (hd : Mentions "date".toList s ↔ Mentions "date".toList t)
    (ht : Mentions "timestamp".toList s ↔ Mentions "timestamp".toList t) :
    mentionsTemporal s = mentionsTemporal t :=
  Bool.eq_iff_iff.2 (by rw [mentionsTemporal_iff, mentionsTemporal_iff, hd, ht])

private theorem rewriteBy_earlierRules (arg : List Char) :
    rewriteBy earlierRules arg = rewriteBy (otherCalls.map .call)
      (timestampCastRule.output (dateCastRule.output (currentTimestamp.substitute
        (dateOffset.substitute (signFoldedOffset.substitute arg))))) := by
  rw [earlierRules, rewriteBy_append]
  simp only [earlierPatterns, earlierCalls, List.map_cons, List.map_nil, rewriteBy_cons,
    rewriteBy_nil, Rule.output_pattern, Rule.output_call steady_dateCast.named,
    Rule.output_call steady_timestampCast.named, signFoldedOffsetRule, dateOffsetRule,
    currentTimestampRule]

private theorem mentionsTemporal_otherCalls {text : List Char} (h : Closed text) :
    mentionsTemporal (rewriteBy (otherCalls.map .call) text) = mentionsTemporal text :=
  mentionsTemporal_congr (mentions_rewriteBy named_date (faithful_otherCalls (.inl rfl)) h)
    (mentions_rewriteBy named_timestamp (faithful_otherCalls (.inr rfl)) h)

/-- Whether an argument mentions a date or a timestamp where the rules of `CHAR` see it, is decided by
the words `CURRENT TIMESTAMP` and the calls of `TIMESTAMP` in it. -/
theorem mentionsTemporal_earlierRules {arg : List Char} (h : Closed arg) :
    mentionsTemporal (rewriteBy earlierRules arg) =
      mentionsTemporal (timestampCastRule.output (currentTimestamp.substitute arg)) := by
  have hcur : Closed (currentTimestamp.substitute arg) :=
    (phrasal_currentTimestamp.walk_substitute false _ arg).trans h
  have hdate : Closed (dateOffset.substitute (signFoldedOffset.substitute arg)) :=
    (phrasal_dateOffset.walk_substitute false _ _).trans
      ((phrasal_signFoldedOffset.walk_substitute false _ arg).trans h)
  have hall : Closed (currentTimestamp.substitute
      (dateOffset.substitute (signFoldedOffset.substitute arg))) :=
    (phrasal_currentTimestamp.walk_substitute false _ _).trans hdate
  have hcast := CallRule.closed_output steady_dateCast.tidy steady_dateCast.named hall
  rw [rewriteBy_earlierRules, mentionsTemporal_otherCalls
    (CallRule.closed_output steady_timestampCast.tidy steady_timestampCast.named hcast)]
  by_cases hm : Mentions "date".toList arg
  · -- What mentions a date goes on to mention one.
    have hleft : Mentions "date".toList (timestampCastRule.output (dateCastRule.output
        (currentTimestamp.substitute (dateOffset.substitute (signFoldedOffset.substitute arg))))) := by
      rw [mentions_timestampCast hcast, mentions_dateCast hall, mentions_currentTimestamp,
        mentions_dateOffset, mentions_signFoldedOffset]
      exact hm
    have hright : Mentions "date".toList
        (timestampCastRule.output (currentTimestamp.substitute arg)) := by
      rw [mentions_timestampCast hcur, mentions_currentTimestamp]
      exact hm
    rw [mentionsTemporal_iff.2 (.inl hleft), mentionsTemporal_iff.2 (.inl hright)]
  · -- What mentions no date is nothing to the rules of dates.
    have hnot : ¬ Mentions "date".toList (currentTimestamp.substitute arg) := by
      rw [mentions_currentTimestamp]
      exact hm
    rw [substitute_eq_self_of_not_mentions (yields_signFoldedOffset_date.mono fun _ _ => And.right) hm,
      substitute_eq_self_of_not_mentions (yields_dateOffset_date.mono fun _ _ => And.right) hm,
      output_dateCast_of_not_mentions hcur hnot]

/-- An argument without the words `CURRENT TIMESTAMP`, spelled without the long s, mentions a date or a
timestamp where the rules of `CHAR` see it exactly if it does as it is written. -/
theorem mentionsTemporal_earlierRules_of_plain {arg : List Char} (h : Closed arg)
    (hcur : currentTimestamp.occurs arg = false) (hlong : 'ſ' ∉ arg) :
    mentionsTemporal (rewriteBy earlierRules arg) = mentionsTemporal arg := by
  rw [mentionsTemporal_earlierRules h, substitute_eq_self hcur]
  have hlast : Mentions "timestamp".toList ")::timestamp".toList := by decide
  rcases CallRule.mentions_output_or_eq steady_timestampCast.named (mentions_around hlast) h with
    ⟨hout, hin⟩ | he
  · have hm : Mentions "timestamp".toList arg := by
      refine hin ?_
      rintro o ⟨name, blanks, rfl, hn, -⟩ ho
      have hnl : 'ſ' ∉ name := fun hm => hlong (ho.subset (List.mem_append_left _ hm))
      have hs : Spells "TIMESTAMP" name := hn
      have hl : name.map asciiLower = "timestamp".toList :=
        hs.map_asciiLower (by decide) hnl (hs.notMem (by decide))
      exact ⟨[], (blanks ++ ['(']).map asciiLower, by rw [List.nil_append, ← hl, ← List.map_append]⟩
    rw [mentionsTemporal_iff.2 (.inr hout), mentionsTemporal_iff.2 (.inr hm)]
  · rw [he]

end ReportMigration.Sql
