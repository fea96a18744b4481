import ReportMigration.Proofs.Sql.Temporal

/-!
# Calls of `CHAR`

Which of its two rules settles a call of `CHAR`. The first rule takes the calls whose argument
mentions a date or a timestamp where the rule sees it, and the second rule all others.
-/

namespace ReportMigration.Sql

open Text Scan

private theorem brackets_toChar : Brackets "to_char(".toList ", 'YYYY-MM-DD')".toList :=
  ⟨by decide, by decide, by decide, by decide, by decide⟩

theorem tidy_charOfDate : Tidy charOfDate where
  item {args text} hargs ht := by
    obtain ⟨expr, rfl, -, -, rfl⟩ := charOfDate_eq_some.1 ht
    exact brackets_toChar.item (hargs expr List.mem_cons_self)
  tight {args text} ht := by
    obtain ⟨expr, rfl, -, -, rfl⟩ := charOfDate_eq_some.1 ht
    exact brackets_toChar.tight_append expr
  unquoted {args text} hargs ht := by
    obtain ⟨expr, rfl, -, -, rfl⟩ := charOfDate_eq_some.1 ht
    exact unquoted_append (unquoted_append brackets_toChar.unquoted.1
      (hargs expr List.mem_cons_self)) brackets_toChar.unquoted.2

theorem mentionsTemporal_trim (text : List Char) :
    mentionsTemporal (trim text) = mentionsTemporal text :=
  mentionsTemporal_congr (mentions_trim (by decide)) (mentions_trim (by decide))

theorem charOfDate_singleton (expr : List Char) :
    charOfDate [expr] =
      if mentionsTemporal expr then around "to_char(" ", 'YYYY-MM-DD')" [expr] else none := by
  cases expr with
  | nil =>
    have hs : single [[]] = none := rfl
    rw [charOfDate, around, hs, Option.filter_none, Option.bind_none, Option.map_none, ite_self]
  | cons c expr =>
    have hs : single [c :: expr] = some (c :: expr) := rfl
    rw [charOfDate, hs, Option.filter_some]
    split
    · rfl
    · rfl

theorem carries_charOfDate {plug : List Char → Prop} (hplug : ∀ t, plug t → Plug t)
    (hsame : ∀ front back, ∃ temporal, ∀ t, plug t →
      mentionsTemporal (front ++ (t ++ back)) = temporal) (e : Ending) :
    Carries e plug charOfDate := by
  intro args behind front back ha hf he
  have haround := carries_around brackets_toChar e (fun t ht => (hplug t ht).tight) args behind front
    back ha hf he
  by_cases hne : args ≠ [] ∨ behind ≠ []
  · refine .inl fun t _ => ?_
    rw [charOfDate, single_of_ne hne]
    rfl
  · obtain ⟨rfl, rfl⟩ : args = [] ∧ behind = [] := by simpa using hne
    obtain ⟨temporal, htemporal⟩ := hsame front back
    cases temporal with
    | false =>
      refine .inl fun t ht => ?_
      rw [List.nil_append, charOfDate_singleton, mentionsTemporal_trim, htemporal t ht]
      rfl
    | true =>
      have heq : ∀ t, plug t → charOfDate ([] ++ [trim (front ++ (t ++ back))]) =
          around "to_char(" ", 'YYYY-MM-DD')" ([] ++ [trim (front ++ (t ++ back))]) := by
        intro t ht
        rw [List.nil_append, charOfDate_singleton, mentionsTemporal_trim, htemporal t ht, if_pos rfl]
      rcases haround with hnone | ⟨front', back', hne', hu, hend, hsome⟩
      · exact .inl fun t ht => (heq t ht).trans (hnone t ht)
      · exact .inr ⟨front', back', hne', hu, hend, fun t ht => (heq t ht).trans (hsome t ht)⟩

/-- A call of `CHAR` behind its first rule, with the opener that it was written with: a conversion if
its argument mentions a date or a timestamp, or else the call. -/
def dated (o : List Char) (temporal : Bool) (arg : List Char) : List Char :=
  if temporal then "to_char(".toList ++ trim arg ++ ", 'YYYY-MM-DD')".toList else o ++ (arg ++ [')'])

/-- The argument has text, and does or does not mention a date or a timestamp. -/
structure Argument (temporal : Bool) (arg : List Char) : Prop where
  item : Item arg
  solid : Solid arg
  mentions : mentionsTemporal arg = temporal

variable {o : List Char} {temporal : Bool}

theorem plug_dated (ho : Opens "CHAR".toList o) {arg : List Char} (h : Argument temporal arg) :
    Plug (dated o temporal arg) := by
  cases temporal with
  | false => exact CallRule.plug_call (by decide) ho h.item.closed
  | true =>
    exact brackets_toChar.plug h.item.trim (by decide) (by decide)

private theorem asciiLower_notMem {c : Char} (hc : foldCase c = 'c') {word : List Char}
    (hw : Named word) (hword : 'c' ∉ word) : asciiLower c ∉ word := by
  intro hm
  have hd := List.all_eq_true.1 hw.2 _ hm
  simp only [Bool.and_eq_true, decide_eq_true_eq] at hd
  rw [← foldCase_eq_asciiLower hd.1, hc] at hm
  exact hword hm

/-- Around a call of a function whose name begins with a C a date or a timestamp is mentioned, or in its
argument. -/
theorem mentionsTemporal_call {name : List Char} (hc : name.head?.map foldCase = some 'c')
    (hname : ∀ word ∈ ["date".toList, "timestamp".toList], ¬ word <:+: name.map foldCase)
    (ho : Opens name o) (front arg back : List Char) :
    mentionsTemporal (front ++ ((o ++ (arg ++ [')'])) ++ back)) =
      (mentionsTemporal front || mentionsTemporal arg || mentionsTemporal back) := by
  obtain ⟨c, rest, he, hfold⟩ : ∃ c rest, o = c :: rest ∧ foldCase c = 'c' := by
    obtain ⟨written, blanks, rfl, hn, -⟩ := ho
    rw [← List.head?_map, ← hn, List.head?_map] at hc
    cases written with
    | nil => cases hc
    | cons c written => exact ⟨c, _, rfl, Option.some.inj hc⟩
  have hword : ∀ word ∈ ["date".toList, "timestamp".toList],
      Mentions word (front ++ ((o ++ (arg ++ [')'])) ++ back)) ↔
        Mentions word front ∨ Mentions word arg ∨ Mentions word back := by
    intro word hm
    have hw : Named word := by
      revert word
      decide
    have hnone : 'c' ∉ word := by
      revert word
      decide
    have hhead : ∀ d, ((o ++ (arg ++ [')'])) ++ back).head? = some d → asciiLower d ∉ word := by
      rw [he]
      rintro d ⟨⟩
      exact asciiLower_notMem hfold hw hnone
    have hcons : arg ++ [')'] ++ back = arg ++ ')' :: back := by simp
    rw [mentions_append_of_head hhead, List.append_assoc, mentions_opens hw (hname word hm) ho, hcons,
      mentions_cons hw (by decide)]
  rw [Bool.eq_iff_iff, Bool.or_eq_true, Bool.or_eq_true, mentionsTemporal_iff, mentionsTemporal_iff,
    mentionsTemporal_iff, mentionsTemporal_iff, hword _ (by simp), hword _ (by simp)]
  tauto

/-- What stands around a call in a text decides whether the text mentions a date or a timestamp, unless
the call does. -/
theorem mentionsTemporal_dated (ho : Opens "CHAR".toList o) (temporal : Bool)
    (front back : List Char) : ∃ mentioned, ∀ arg, Argument temporal arg →
      mentionsTemporal (front ++ (dated o temporal arg ++ back)) = mentioned := by
  cases temporal with
  | true =>
    refine ⟨true, fun arg harg => mentionsTemporal_iff.2 ?_⟩
    have hinfix : trim arg <:+: front ++ (dated o true arg ++ back) :=
      ⟨front ++ "to_char(".toList, ", 'YYYY-MM-DD')".toList ++ back, by simp [dated]⟩
    have hm := mentionsTemporal_iff.1 ((mentionsTemporal_trim arg).trans harg.mentions)
    exact hm.imp (·.mono hinfix) (·.mono hinfix)
  | false =>
    refine ⟨mentionsTemporal front || mentionsTemporal back, fun arg harg => ?_⟩
    rw [dated, if_neg Bool.false_ne_true, mentionsTemporal_call (by decide) (by decide) ho,
      harg.mentions, Bool.or_false]

private theorem named_char : Named "CHAR".toList := by decide

theorem named_charDate : Named charDateRule.function := named_char

private theorem tidy_charDate : Tidy charDateRule.transform := tidy_charOfDate

private theorem fences_toChar {word : List Char}
    (hword : word = "date".toList ∨ word = "timestamp".toList) :
    Fences word "to_char(".toList ", 'YYYY-MM-DD')".toList := by
  rcases hword with rfl | rfl
  · exact ⟨by decide, by decide, by decide⟩
  · exact ⟨by decide, by decide, by decide⟩

theorem Argument.output {arg : List Char} (h : Argument temporal arg) :
    Argument temporal (charDateRule.output arg) where
  item := CallRule.item_output tidy_charOfDate named_char h.item
  solid := (CallRule.solid_output tidy_charOfDate named_char h.item.closed).2 h.solid
  mentions := by
    have hmentions : ∀ word, (word = "date".toList ∨ word = "timestamp".toList) →
        (Mentions word (charDateRule.output arg) ↔ Mentions word arg) := by
      intro word hword
      have hw : Named word := by rcases hword with rfl | rfl <;> decide
      have hname : ¬ word <:+: "CHAR".toList.map foldCase := by
        rcases hword with rfl | rfl <;> decide
      exact CallRule.mentions_output hw named_char hname (faithful_charOfDate hw (fences_toChar hword))
        h.item.closed
    rw [mentionsTemporal_congr (hmentions _ (.inl rfl)) (hmentions _ (.inr rfl)), h.mentions]

theorem settled_charDate {arg : List Char} (h : Argument temporal arg) :
    charDateRule.settled (some o) arg = dated o temporal arg := by
  have hne := trim_ne_nil.2 h.solid
  have hr : charDateRule.replacement (some o) arg = charOfDate [trim arg] := by
    rw [CallRule.replacement, Arguments.split_of_item h.item]
    rfl
  rw [CallRule.settled, hr, charOfDate_singleton, mentionsTemporal_trim, h.mentions]
  cases temporal with
  | false => simp [dated]
  | true =>
    rw [if_pos rfl, around_eq_some.2 ⟨_, rfl, hne, rfl⟩]
    rfl

theorem turns_charDate {e e' : Ending} (h : CallRule.Turns charDateRule e e') (he : e ≠ .word) :
    e' ≠ .word := by
  rcases h with rfl | rfl | ⟨-, args, text, ht, rfl⟩
  · exact he
  · exact nofun
  · obtain ⟨expr, -, -, -, rfl⟩ := charOfDate_eq_some.1 ht
    rw [ending_append _ (by decide)]
    decide

theorem output_charDate (ho : Opens "CHAR".toList o) (temporal : Bool) {front : List Char}
    (hfront : Unquoted front) (hword : ending front ≠ .word) (back : List Char) :
    ∃ front' back', Unquoted front' ∧ ending front' ≠ .word ∧ ∀ arg, Argument temporal arg →
      charDateRule.output (front ++ (o ++ (arg ++ ')' :: back))) =
        front' ++ (dated o temporal (charDateRule.output arg) ++ back') := by
  have hplug : ∀ t, (∃ arg, Argument temporal arg ∧ t = dated o temporal arg) → Plug t :=
    fun t ⟨arg, harg, he⟩ => he ▸ plug_dated ho harg
  have hsame : ∀ front back, ∃ mentioned, ∀ t,
      (∃ arg, Argument temporal arg ∧ t = dated o temporal arg) →
        mentionsTemporal (front ++ (t ++ back)) = mentioned := by
    intro front back
    obtain ⟨mentioned, hm⟩ := mentionsTemporal_dated ho temporal front back
    exact ⟨mentioned, fun t ⟨arg, harg, he⟩ => he ▸ hm arg harg⟩
  obtain ⟨front', back', hu, hturns, hout⟩ := CallRule.output_own_call
    tidy_charDate named_charDate _ (fun t ht => (hplug t ht).item) (carries_charOfDate hplug hsame)
    ho hfront hword back
  refine ⟨front', back', hu, turns_charDate hturns hword, fun arg harg => ?_⟩
  have hsettled := settled_charDate (o := o) harg.output
  rw [hout arg harg.item.closed (hsettled ▸ ⟨_, harg.output, rfl⟩), hsettled]

/-- What a call of `CHAR` becomes: a conversion to an ISO date or a cast to a character. -/
def charCall (temporal : Bool) (expr : List Char) : List Char :=
  if temporal then "to_char(".toList ++ expr ++ ", 'YYYY-MM-DD')".toList
  else "CAST(".toList ++ expr ++ " AS char)".toList

private theorem settled_charCast {arg : List Char} (hi : Item arg) (hs : Solid arg) :
    charCastRule.settled (some o) arg = "CAST(".toList ++ trim arg ++ " AS char)".toList := by
  have hr : charCastRule.replacement (some o) arg = around "CAST(" " AS char)" [trim arg] := by
    rw [CallRule.replacement, Arguments.split_of_item hi]
    rfl
  rw [CallRule.settled, hr, around_eq_some.2 ⟨_, rfl, trim_ne_nil.2 hs, rfl⟩]
  rfl

private theorem plug_cast {expr : List Char} (h : Item expr) :
    Plug ("CAST(".toList ++ expr ++ " AS char)".toList) := by
  have hb : Brackets "CAST(".toList " AS char)".toList :=
    ⟨by decide, by decide, by decide, by decide, by decide⟩
  exact hb.plug h (by decide) (by decide)

theorem cut_format {function : List Char} (hf : Named function) :
    Token.cut function none " 'YYYY-MM-DD'".toList =
      [.other ' ', .literal "'YYYY-MM-DD'".toList] := by
  have hsplit : Literal.split "YYYY-MM-DD'".toList = ("YYYY-MM-DD'".toList, []) := by cbv
  have hformat : " 'YYYY-MM-DD'".toList = ' ' :: '\'' :: "YYYY-MM-DD'".toList := rfl
  rw [hformat, Token.cut_char_of_isWord hf (by decide), if_neg (by decide), if_neg (by decide),
    if_neg (by decide), Token.cut_char_of_isWord hf (by decide), if_pos rfl, hsplit, Token.cut_nil]
  rfl

private theorem writes_format : CallRule.Writes charCastRule
    (Token.cut charCastRule.function none (',' :: " 'YYYY-MM-DD'".toList))
    ", 'YYYY-MM-DD'".toList := by
  have hf : Named charCastRule.function := named_char
  have hcomma : (some ',').any isWord = (none : Option Char).any isWord := by decide
  have hcut : Token.cut charCastRule.function none (',' :: " 'YYYY-MM-DD'".toList) =
      [',', ' '].map Token.other ++ [Token.literal "'YYYY-MM-DD'".toList] := by
    rw [Token.cut_char_of_isWord hf (by decide), if_neg (by decide), if_neg (by decide),
      if_neg (by decide), Token.cut_beside hf hcomma, cut_format hf]
    rfl
  rw [hcut]
  exact (CallRule.writes_others _ [',', ' ']).append (CallRule.writes_literal _ _)

theorem output_charCast (ho : Opens "CHAR".toList o) (temporal : Bool) {front : List Char}
    (hfront : Unquoted front) (hword : ending front ≠ .word) (back : List Char) :
    ∃ front' back', ∀ arg, Argument temporal arg →
      charCastRule.output (front ++ (dated o temporal arg ++ back)) =
        front' ++ (charCall temporal (trim (charCastRule.output arg)) ++ back') := by
  have hsteady := steady_charCast
  cases temporal with
  | false =>
    obtain ⟨front', back', -, -, hout⟩ := CallRule.output_own_call hsteady.tidy hsteady.named Plug
      (fun _ ht => ht.item) hsteady.carries ho hfront hword back
    refine ⟨front', back', fun arg harg => ?_⟩
    have hitem := CallRule.item_output hsteady.tidy hsteady.named harg.item
    have hsettled := settled_charCast (o := o) hitem
      ((CallRule.solid_output hsteady.tidy hsteady.named harg.item.closed).2 harg.solid)
    have h := hout arg harg.item.closed (hsettled ▸ plug_cast hitem.trim)
    rw [hsettled] at h
    simpa [dated, charCall] using h
  | true =>
    have hopens : Opens "to_char".toList "to_char(".toList := ⟨"to_char".toList, [], rfl, rfl, rfl⟩
    have hapart : Apart charCastRule.function "to_char".toList := by decide
    obtain ⟨front', back', -, -, hout⟩ := CallRule.output_other_call hsteady.tidy hsteady.named
      hsteady.carries (by decide) hapart.ne hapart.ne_append hopens hfront back
    refine ⟨front', back', fun arg harg => ?_⟩
    have hclosed : Closed (trim arg ++ ',' :: " 'YYYY-MM-DD'".toList) := by
      rw [Closed, Place.walk_append, harg.item.trim.closed]
      rfl
    have h := hout _ hclosed
    rw [CallRule.output_append hsteady.named harg.item.trim.closed writes_format,
      CallRule.output_trim hsteady.tidy hsteady.named harg.item.closed] at h
    have hformat : ", 'YYYY-MM-DD')".toList = ',' :: " 'YYYY-MM-DD'".toList ++ [')'] := rfl
    have hformat' : ", 'YYYY-MM-DD'".toList = ',' :: " 'YYYY-MM-DD'".toList := rfl
    rw [hformat'] at h
    simp only [dated, charCall, if_true, hformat, List.append_assoc, List.singleton_append] at h ⊢
    exact h

def charRules : List Rule :=
  [.call charDateRule, .call charCastRule]

theorem standard_rules : RuleSet.standard.rules =
    .pattern isolationHintRule :: (earlierRules ++ charRules) :=
  rfl

/-- The rules in front of the rules of `CHAR` leave its calls where they are, with the arguments as
they leave them alone. -/
theorem earlierRules_call {pre : List Char} (hpre : Unquoted pre)
    (hword : pre.getLast?.any isWord = false) (ho : Opens "CHAR".toList o) (post : List Char) :
    ∃ front back, Unquoted front ∧ (ending pre).Leads (ending front) ∧ ∀ arg, Closed arg →
      rewriteBy (.pattern isolationHintRule :: earlierRules) (pre ++ (o ++ (arg ++ ')' :: post))) =
        front ++ (o ++ (rewriteBy earlierRules arg ++ ')' :: back)) := by
  obtain ⟨post', hhint⟩ := substitute_isolationHint post
  have hb : Bystander o.dropLast := ho.bystander named_char (by decide) (by decide)
  obtain ⟨front₁, back₁, hu₁, hl₁, hpatterns⟩ :=
    patterns_call phrasal_earlierPatterns ho hb hpre hword post'
  obtain ⟨front, back, hu, hleads, hcalls⟩ :=
    calls_call steady_earlierCalls named_char ho hu₁ back₁
  have hsame : ending front₁ = ending pre := by rw [ending, ending, hl₁]
  refine ⟨front, back, hu, hsame ▸ hleads, fun arg harg => ?_⟩
  have hclosed : Closed (rewriteBy (earlierPatterns.map .pattern) arg) :=
    closed_rewriteBy (fun rule hm => settles_earlierRules rule (List.mem_append_left _ hm)) harg
  have hassoc : ∀ x y : List Char, pre ++ (o ++ (x ++ y)) = (pre ++ (o ++ x)) ++ y := by simp
  rw [rewriteBy_cons, Rule.output_pattern, hassoc, isolationHintRule, hhint, ← hassoc, earlierRules,
    rewriteBy_append, rewriteBy_append, hpatterns, hcalls _ hclosed]

/-- Only a closing parenthesis directly in front of a call may hide it from the rules of `CHAR`. -/
private theorem getLast?_of_leads {pre front : List Char} (hword : pre.getLast?.any isWord = false)
    (h : (ending pre).Leads (ending front)) (hfront : front.getLast?.any isWord = true) :
    pre.getLast? = some ')' := by
  have hend := ending_word_iff.2 hfront
  rcases h with h | h | h
  · rw [hend] at h
    exact absurd (ending_word_iff.1 h.symm) (by simp [hword])
  · rw [hend] at h
    cases h
  · rw [ending] at h
    cases hl : pre.getLast? with
    | none =>
      rw [hl] at h
      cases h
    | some c =>
      have hc : isWord c = false := by simpa [hl] using hword
      by_cases hp : c = ')'
      · rw [hp]
      · simp [hl, Ending.ofLast, hc, hp] at h

/-- A closed call of `CHAR` outside literals, with one argument that is not empty, becomes a conversion
to an ISO date if its argument mentions a date or a timestamp behind the rules in front of those of
`CHAR`, and a cast to a character if not. Those rules leave the call where it is, unless one of them
puts a word directly in front of its name, in the place of a call that ends there. Among them only the
one of `CURRENT TIMESTAMP` and the one of `TIMESTAMP` have a part in what the argument mentions. -/
theorem convert_char_call {pre : List Char} (hpre : Unquoted pre)
    (hword : pre.getLast?.any isWord = false) (ho : Opens "CHAR".toList o) (post : List Char) :
    ∃ front back,
      (front.getLast?.any isWord = true → pre.getLast? = some ')') ∧
      (∀ arg, Closed arg → rewriteBy (.pattern isolationHintRule :: earlierRules)
        (pre ++ (o ++ (arg ++ ')' :: post))) =
          front ++ (o ++ (rewriteBy earlierRules arg ++ ')' :: back))) ∧
      (front.getLast?.any isWord = false → ∀ temporal, ∃ front' back', ∀ arg expr, Closed arg →
        Arguments.split arg = [expr] → expr ≠ [] →
          mentionsTemporal (rewriteBy earlierRules arg) = temporal →
            (RuleSet.standard.convert (pre ++ (o ++ (arg ++ ')' :: post)))).text =
              front' ++ (charCall temporal (trim (rewriteBy (earlierRules ++ charRules) arg)) ++
                back')) ∧
      ∀ arg, Closed arg →
        mentionsTemporal (rewriteBy earlierRules arg) =
          mentionsTemporal (timestampCastRule.output (currentTimestamp.substitute arg)) ∧
        (currentTimestamp.occurs arg = false → 'ſ' ∉ arg →
          mentionsTemporal (rewriteBy earlierRules arg) = mentionsTemporal arg) := by
  obtain ⟨front, back, hu, hleads, hearlier⟩ := earlierRules_call hpre hword ho post
  refine ⟨front, back, getLast?_of_leads hword hleads, hearlier, fun hfront temporal => ?_,
    fun arg harg => ⟨mentionsTemporal_earlierRules harg,
      mentionsTemporal_earlierRules_of_plain harg⟩⟩
  have hend : ending front ≠ .word := fun h => absurd (ending_word_iff.1 h) (by simp [hfront])
  obtain ⟨front₁, back₁, hu₁, hend₁, hdate⟩ := output_charDate ho temporal hu hend back
  obtain ⟨front', back', hcast⟩ := output_charCast ho temporal hu₁ hend₁ back₁
  refine ⟨front', back', fun arg expr harg hsplit hne hmentions => ?_⟩
  obtain ⟨hitem, rfl⟩ := Arguments.item_of_split_eq harg hsplit
  have hargument : Argument temporal (rewriteBy earlierRules arg) :=
    ⟨item_rewriteBy settles_earlierRules hitem,
      (solid_rewriteBy settles_earlierRules harg).2 (trim_ne_nil.1 hne), hmentions⟩
  have hchar : ∀ text, rewriteBy charRules text =
      charCastRule.output (charDateRule.output text) := by
    intro text
    rw [charRules, rewriteBy_cons, rewriteBy_cons, rewriteBy_nil,
      Rule.output_call named_charDate, Rule.output_call steady_charCast.named]
  rw [RuleSet.text_convert, standard_rules, ← List.cons_append, rewriteBy_append, hearlier arg harg,
    rewriteBy_append, hchar, hchar, hdate _ hargument, hcast _ hargument.output]

/-- The argument as it is written does not decide: here the words that make it a timestamp are gone
before the rules of `CHAR` see it. -/
theorem convert_char_currentTimestamp :
    mentionsTemporal "CURRENT TIMESTAMP".toList = true ∧
      (RuleSet.standard.convert "CHAR(CURRENT TIMESTAMP)".toList).text =
        "CAST(now() AS char)".toList :=
  ⟨by decide, by decide⟩

/-- A column with a date in its name. -/
theorem convert_char_call_column : ∃ front back,
    (RuleSet.standard.convert "SELECT char (hire_date) FROM t".toList).text =
      front ++ ("to_char(hire_date, 'YYYY-MM-DD')".toList ++ back) := by
  have ho : Opens "CHAR".toList "char (".toList := ⟨"char".toList, [' '], by decide⟩
  obtain ⟨front, back, hfront, -, hcall, hmentions⟩ :=
    convert_char_call (show Unquoted "SELECT ".toList by decide) (by decide) ho " FROM t".toList
  have hclosed : Closed "hire_date".toList := by decide
  have htemporal := (hmentions _ hclosed).2 (by cbv) (by decide)
  have hword : front.getLast?.any isWord = false := by
    cases h : front.getLast?.any isWord with
    | false => rfl
    | true => exact absurd (hfront h) (by decide)
  obtain ⟨front', back', hout⟩ := hcall hword true
  refine ⟨front', back', ?_⟩
  have h := hout "hire_date".toList "hire_date".toList hclosed (by decide) (by decide)
    (htemporal.trans (by decide))
  have htrim : trim (rewriteBy (earlierRules ++ charRules) "hire_date".toList) =
      "hire_date".toList := by decide
  rw [htrim] at h
  exact h

end ReportMigration.Sql
