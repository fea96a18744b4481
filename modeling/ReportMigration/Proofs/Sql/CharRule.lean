import ReportMigration.Proofs.Sql.OnePass

/-!
# One rule for `CHAR`

The two rules of `CHAR` are one rule written in two. The second one runs over what the first one has
written, and each of them judges the arguments of a call by what it has made of the calls inside. But
what a call becomes does not change whether the text around it mentions a date or a timestamp. So each
call that the single rule settles can be settled before the two rules run, by the one that takes it,
and the text in which none is left is the same for all three.
-/

namespace ReportMigration.Sql

open Text

/-- The rule that settles every call of `CHAR` with one argument that is not empty, by what the
argument mentions. -/
def charRule : CallRule :=
  callRule "char" "CHAR" fun args =>
    (single args).map fun expr => charCall (mentionsTemporal expr) expr

section

variable {rule : CallRule} {first second : List (List Char) → Option (List Char)}

theorem Tidy.or (hf : Tidy first) (hs : Tidy second) :
    Tidy fun args => (first args).or (second args) where
  item {args text} hargs ht := by
    rcases Option.or_eq_some_iff.1 ht with h | ⟨-, h⟩
    · exact hf.item hargs h
    · exact hs.item hargs h
  tight {args text} ht := by
    rcases Option.or_eq_some_iff.1 ht with h | ⟨-, h⟩
    · exact hf.tight h
    · exact hs.tight h
  unquoted {args text} hargs ht := by
    rcases Option.or_eq_some_iff.1 ht with h | ⟨-, h⟩
    · exact hf.unquoted hargs h
    · exact hs.unquoted hargs h

theorem CallRule.Wraps.or (hf : CallRule.Wraps rule first) (hs : CallRule.Wraps rule second) :
    CallRule.Wraps rule fun args => (first args).or (second args) := by
  intro args text hargs ht
  rcases Option.or_eq_some_iff.1 ht with h | ⟨-, h⟩
  · exact hf hargs h
  · exact hs hargs h

theorem CallRule.Encloses.or (hf : CallRule.Encloses first) (hs : CallRule.Encloses second) :
    CallRule.Encloses fun args => (first args).or (second args) := by
  intro args text ht
  rcases Option.or_eq_some_iff.1 ht with h | ⟨-, h⟩
  · exact hf h
  · exact hs h

end

/-- The single rule tries what the first of the two rules does, and then what the second one does. -/
theorem transform_charRule : charRule.transform =
    fun args => (charDateRule.transform args).or (charCastRule.transform args) := by
  funext args
  change (single args).map _ = (charOfDate args).or (around "CAST(" " AS char)" args)
  cases hs : single args with
  | none => simp [charOfDate, around, hs]
  | some expr =>
    obtain ⟨rfl, hne⟩ := single_eq_some.1 hs
    have hdate : around "to_char(" ", 'YYYY-MM-DD')" [expr] =
        some ("to_char(".toList ++ expr ++ ", 'YYYY-MM-DD')".toList) :=
      around_eq_some.2 ⟨expr, rfl, hne, rfl⟩
    have hcast : around "CAST(" " AS char)" [expr] =
        some ("CAST(".toList ++ expr ++ " AS char)".toList) :=
      around_eq_some.2 ⟨expr, rfl, hne, rfl⟩
    rw [charOfDate_singleton, hdate, hcast, Option.map_some, charCall]
    cases mentionsTemporal expr <;> rfl

theorem charRule_eq_some {args : List (List Char)} {text : List Char} :
    charRule.transform args = some text ↔
      ∃ expr, args = [expr] ∧ expr ≠ [] ∧ text = charCall (mentionsTemporal expr) expr := by
  change (single args).map _ = some text ↔ _
  simp only [Option.map_eq_some_iff, single_eq_some, and_assoc, eq_comm (b := text)]

private theorem mem_wrappingCalls_charRules :
    charDateRule ∈ wrappingCalls ∧ charCastRule ∈ wrappingCalls :=
  ⟨by simp [wrappingCalls], by simp [wrappingCalls]⟩

theorem named_charRule : Named charRule.function :=
  named_charDate

theorem tidy_charRule : Tidy charRule.transform :=
  transform_charRule ▸ tidy_charOfDate.or steady_charCast.tidy

/-- What is put in the place of a call of `CHAR` is a call of another function around its argument. -/
theorem wraps_charRules : ∀ rule ∈ [charRule, charDateRule, charCastRule],
    CallRule.Wraps rule rule.transform ∧ CallRule.Encloses rule.transform := by
  have hwraps : ∀ rule : CallRule, rule.function = "CHAR".toList →
      CallRule.Wraps rule charDateRule.transform ∧ CallRule.Wraps rule charCastRule.transform := by
    intro rule hfunction
    have hnamed : Named rule.function := hfunction ▸ named_charRule
    have h := wraps_wrappingCalls hnamed (hfunction ▸ apart_newNames charDateRule
      (mem_standardCalls_of_wrapping _ mem_wrappingCalls_charRules.1))
    exact ⟨h _ mem_wrappingCalls_charRules.1, h _ mem_wrappingCalls_charRules.2⟩
  have hdate : CallRule.Encloses charDateRule.transform :=
    encloses_wrappingCalls _ mem_wrappingCalls_charRules.1
  have hcast : CallRule.Encloses charCastRule.transform :=
    encloses_wrappingCalls _ mem_wrappingCalls_charRules.2
  simp only [List.forall_mem_cons, List.not_mem_nil, false_imp_iff, implies_true, and_true]
  refine ⟨⟨?_, ?_⟩, ⟨(hwraps charDateRule rfl).1, hdate⟩, (hwraps charCastRule rfl).2, hcast⟩
  · rw [transform_charRule]
    exact CallRule.Wraps.or (hwraps charRule rfl).1 (hwraps charRule rfl).2
  · rw [transform_charRule]
    exact CallRule.Encloses.or hdate hcast

variable {text next : List Char}

theorem finds_charRules (h : charRule.finds text = false) :
    charDateRule.finds text = false ∧ charCastRule.finds text = false := by
  have hcast : charCastRule.finds text = false := by
    refine CallRule.finds_eq_false_of_accepts named_charRule rfl (fun {args} hsome => ?_) h
    simp [transform_charRule, hsome]
  exact ⟨finds_charDate hcast, hcast⟩

/-- A call of `CHAR` that mentions no date, as it is written and as it is cast, is the same plug to the
rule of dates. -/
private theorem output_charDate_cast {front o inside : List Char} (hfront : Unquoted front)
    (hword : front.getLast?.any isWord = false) (ho : Opens "CHAR".toList o) (hinside : Item inside)
    (hsolid : Solid inside) (hquiet : charDateRule.finds inside = false)
    (hmentions : mentionsTemporal inside = false) (back : List Char) :
    ∃ front' back', Unquoted front' ∧ front'.getLast?.any isWord = false ∧
      charDateRule.output (front ++ (o ++ (inside ++ ')' :: back))) =
        front' ++ (o ++ (inside ++ ')' :: back')) ∧
      charDateRule.output (front ++ (charCall false (trim inside) ++ back)) =
        front' ++ (charCall false (trim inside) ++ back') := by
  have hf := named_charDate
  have hcast : Opens "CAST".toList "CAST(".toList := CallRule.opens_name "CAST".toList
  have hapart : Apart charDateRule.function "CAST".toList := by decide
  have hgap : Inert " AS char".toList := by decide
  obtain ⟨hclosed, hfinds, -⟩ := CallRule.finds_append_inert hf hinside.trim.closed hgap
  have hgapless : ∀ word, Named word → ¬ Mentions word " AS char".toList →
      (Mentions word (trim inside ++ " AS char".toList) ↔ Mentions word (trim inside)) := by
    intro word hw hnone
    rw [mentions_append_of_head_isWord hw (by decide)]
    exact or_iff_left hnone
  have hbare : mentionsTemporal (trim inside ++ " AS char".toList) = false := by
    rw [← hmentions, ← mentionsTemporal_trim inside]
    exact mentionsTemporal_congr (hgapless _ (by decide) (by decide))
      (hgapless _ (by decide) (by decide))
  have hquiet' : charDateRule.finds (trim inside ++ " AS char".toList) = false := by
    rw [hfinds, (CallRule.finds_trim hf hinside.closed).1, hquiet]
  let written := o ++ (inside ++ [')'])
  let cast := "CAST(".toList ++ ((trim inside ++ " AS char".toList) ++ [')'])
  have hplug : ∀ t, t = written ∨ t = cast → Plug t := by
    rintro t (rfl | rfl)
    · exact CallRule.plug_call named_charRule ho hinside.closed
    · exact CallRule.plug_call (by decide) hcast hclosed
  have hsame : ∀ front back, ∃ temporal, ∀ t, t = written ∨ t = cast →
      mentionsTemporal (front ++ (t ++ back)) = temporal := by
    refine fun front back => ⟨mentionsTemporal front || mentionsTemporal back, ?_⟩
    rintro t (rfl | rfl)
    · rw [mentionsTemporal_call (by decide) (by decide) ho, hmentions, Bool.or_false]
    · rw [mentionsTemporal_call (by decide) (by decide) hcast, hbare, Bool.or_false]
  have hend := ending_ne_word_iff.2 hword
  obtain ⟨front', back', hu, hturns, hown, hother⟩ := CallRule.output_calls tidy_charOfDate hf
    (fun t ht => (hplug t ht).item) (carries_charOfDate hplug hsame) hfront back
  have hword' := ending_ne_word_iff.1 (turns_charDate hturns hend)
  have hleft : charDateRule.settled (some o) inside = written := by
    rw [settled_charDate ⟨hinside, hsolid, hmentions⟩, dated, if_neg Bool.false_ne_true]
  have hout := hown hend ho hinside.closed
  rw [CallRule.output_of_finds hf hquiet, hleft] at hout
  have hout' := hother (by decide) hapart.ne hapart.ne_append hcast hclosed
  rw [CallRule.output_of_finds hf hquiet'] at hout'
  refine ⟨front', back', hu, hword', ?_, ?_⟩
  · simpa [written] using hout (.inl rfl)
  · simpa [cast, charCall] using hout' (.inr rfl)

theorem output_charRules_of_settles (h : charRule.Settles text next) :
    charCastRule.output (charDateRule.output next) =
      charCastRule.output (charDateRule.output text) := by
  obtain @⟨front, o, inside, text, hfront, hword, ho, hinside, hnone, ht, back⟩ := h
  obtain ⟨hdate, hcast⟩ := finds_charRules (CallRule.finds_eq_false.2 hnone)
  obtain ⟨expr, hsplit, hne, rfl⟩ := charRule_eq_some.1 ht
  obtain ⟨hitem, rfl⟩ := Arguments.item_of_split_eq hinside hsplit
  have hwraps := wraps_charRules
  simp only [List.forall_mem_cons] at hwraps
  obtain ⟨-, ⟨hwdate, -⟩, ⟨hwcast, -⟩, -⟩ := hwraps
  rw [mentionsTemporal_trim]
  cases hmentions : mentionsTemporal inside with
  | true =>
    -- The rule of dates takes the call itself.
    have htransform : charDateRule.transform (Arguments.split inside) =
        some (charCall true (trim inside)) :=
      charOfDate_eq_some.2 ⟨_, hsplit, hne, (mentionsTemporal_trim inside).trans hmentions, rfl⟩
    have hopens : Opens charDateRule.function o := ho
    have hstep : charDateRule.Settles (front ++ (o ++ (inside ++ ')' :: back)))
        (front ++ (charCall true (trim inside) ++ back)) :=
      .call hfront hword hopens hinside (CallRule.finds_eq_false.1 hdate) htransform back
    rw [(hstep.output_eq named_charDate hwdate).1]
  | false =>
    -- The rule of dates passes the call and the cast alike, and the second rule finds the call.
    obtain ⟨front', back', hu, hword', hcall, hcast'⟩ := output_charDate_cast hfront hword ho hitem
      (trim_ne_nil.1 hne) hdate hmentions back
    have htransform : charCastRule.transform (Arguments.split inside) =
        some (charCall false (trim inside)) := around_eq_some.2 ⟨_, hsplit, hne, rfl⟩
    have hopens : Opens charCastRule.function o := ho
    have hstep : charCastRule.Settles (front' ++ (o ++ (inside ++ ')' :: back')))
        (front' ++ (charCall false (trim inside) ++ back')) :=
      .call hu hword' hopens hinside (CallRule.finds_eq_false.1 hcast) htransform back'
    rw [hcall, hcast', (hstep.output_eq steady_charCast.named hwcast).1]

theorem output_charRules (text : List Char) :
    charCastRule.output (charDateRule.output text) = charRule.output text := by
  obtain ⟨hsettles, hnone⟩ := CallRule.settles_output named_charRule
    (wraps_charRules charRule List.mem_cons_self).1 text
  -- What the two rules leave stays the same while one call after the other is settled.
  have hsame : ∀ {next}, Relation.ReflTransGen charRule.Settles text next →
      charCastRule.output (charDateRule.output next) =
        charCastRule.output (charDateRule.output text) := by
    intro next h
    induction h with
    | refl => rfl
    | tail _ hstep ih => exact (output_charRules_of_settles hstep).trans ih
  obtain ⟨hdate, hcast⟩ := finds_charRules (CallRule.finds_eq_false.2 hnone)
  rw [← hsame hsettles, CallRule.output_of_finds named_charDate hdate,
    CallRule.output_of_finds steady_charCast.named hcast]

theorem replacements_charRule (text : List Char) :
    (Reading.ofText "CHAR".toList text).replacements charRule =
      (Reading.ofText "CHAR".toList text).replacements charDateRule +
        (Reading.ofText "CHAR".toList (charDateRule.output text)).replacements charCastRule := by
  have hwraps := wraps_charRules
  simp only [List.forall_mem_cons] at hwraps
  obtain ⟨⟨hwrule, herule⟩, ⟨hwdate, hedate⟩, ⟨hwcast, hecast⟩, -⟩ := hwraps
  have hrule := CallRule.calls_output tidy_charRule named_charRule hwrule herule text
  have hdate := CallRule.calls_output tidy_charOfDate named_charDate hwdate hedate text
  have hcast := CallRule.calls_output steady_charCast.tidy steady_charCast.named hwcast hecast
    (charDateRule.output text)
  rw [output_charRules] at hcast
  change calls "CHAR".toList _ + (Reading.ofText "CHAR".toList _).replacements _ =
    calls "CHAR".toList _ at hrule hdate hcast
  omega

/-- The two rules of `CHAR` make of a text what the single rule makes of it. Each call that the single
rule replaces is replaced by one of the two and not by the other. So a closed call outside literals
with one argument that is not empty, at any depth, becomes a conversion to an ISO date at once if its
argument mentions a date or a timestamp as it is written, and stays for the second rule to cast if not.
The texts around the call do not depend on its argument but for that. -/
theorem charRules_eq_charRule :
    (∀ text,
      let once := (Rule.call charDateRule).output text
      (Rule.call charCastRule).output once = (Rule.call charRule).output text ∧
        (charRule.apply text = none ↔
          charDateRule.apply text = none ∧ charCastRule.apply once = none) ∧
        (Reading.ofText "CHAR".toList text).replacements charRule =
          (Reading.ofText "CHAR".toList text).replacements charDateRule +
            (Reading.ofText "CHAR".toList once).replacements charCastRule) ∧
    ∀ {pre o : List Char}, Unquoted pre → pre.getLast?.any isWord = false →
      Opens "CHAR".toList o → ∀ post temporal, ∃ front back front' back', ∀ arg expr, Closed arg →
        Arguments.split arg = [expr] → expr ≠ [] → mentionsTemporal expr = temporal →
          let once := (Rule.call charDateRule).output (pre ++ (o ++ (arg ++ ')' :: post)))
          once = front ++ (dated o temporal ((Rule.call charDateRule).output arg) ++ back) ∧
            (Rule.call charCastRule).output once =
              front' ++ (charCall temporal (trim ((Rule.call charRule).output arg)) ++ back') := by
  simp only [Rule.output_call named_charDate, Rule.output_call steady_charCast.named,
    Rule.output_call named_charRule]
  refine ⟨fun text => ⟨output_charRules text, ?_, replacements_charRule text⟩, ?_⟩
  · have hnone : ∀ {rule : CallRule}, rule.function = "CHAR".toList → ∀ text,
        rule.apply text = none ↔ (Reading.ofText "CHAR".toList text).replacements rule = 0 := by
      intro rule hfunction text
      rw [CallRule.apply_eq_ite (hfunction ▸ named_charRule.isWord), hfunction]
      simp
    rw [hnone rfl, hnone rfl, hnone rfl, replacements_charRule, Nat.add_eq_zero_iff]
  · intro pre o hpre hword ho post temporal
    have hend := ending_ne_word_iff.2 hword
    obtain ⟨front, back, hfront, hend', hfirst⟩ := output_charDate ho temporal hpre hend post
    obtain ⟨front', back', hsecond⟩ := output_charCast ho temporal hfront hend' back
    refine ⟨front, back, front', back', fun arg expr harg hsplit hne hmentions => ?_⟩
    obtain ⟨hitem, rfl⟩ := Arguments.item_of_split_eq harg hsplit
    have hargument : Argument temporal arg :=
      ⟨hitem, trim_ne_nil.1 hne, (mentionsTemporal_trim arg).symm.trans hmentions⟩
    rw [hfirst arg hargument, hsecond _ hargument.output, output_charRules]
    exact ⟨rfl, rfl⟩

/-- Calls inside a call that the first rule takes, and inside one that it leaves. -/
theorem charRules_eq_charRule_nested :
    let text := "CHAR(CHAR(hire_date)) || CHAR(CHAR(id))".toList
    let once := (Rule.call charDateRule).output text
    (Rule.call charCastRule).output once = (Rule.call charRule).output text ∧
      ∃ front back, (Rule.call charCastRule).output once =
        front ++ ("CAST(CAST(id AS char) AS char)".toList ++ back) := by
  obtain ⟨htext, hcall⟩ := charRules_eq_charRule
  have ho : Opens "CHAR".toList "CHAR(".toList := ⟨"CHAR".toList, [], by decide⟩
  obtain ⟨first, last, front, back, hout⟩ :=
    hcall (show Unquoted "CHAR(CHAR(hire_date)) || ".toList by decide) (by decide) ho [] false
  have hcast : charCall false (trim ((Rule.call charRule).output "CHAR(id)".toList)) =
      "CAST(CAST(id AS char) AS char)".toList := by decide +kernel
  obtain ⟨-, h⟩ := hout "CHAR(id)".toList "CHAR(id)".toList (by decide) (by decide) (by decide)
    (by decide)
  rw [hcast] at h
  exact ⟨(htext _).1, front, back, h⟩

end ReportMigration.Sql
