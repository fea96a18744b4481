import ReportMigration.Proofs.Sql.Hint
import ReportMigration.Proofs.Sql.Onlooker

/-!
# A second rewrite

What the standard rules find in a text that they have rewritten. The patterns for dates find nothing
in it, and neither do the calls behind those of `DATE` and `TIMESTAMP`. The other three rules may:
a hint may have stood in front of the hint that was taken away, and the name of a type behind a
cast, as well as a bare name, opens a call with the parentheses that follow it.
-/

namespace ReportMigration.Sql

open Text Scan

theorem RuleSet.applied_convert_eq_nil_iff (set : RuleSet) (text : List Char) :
    (set.convert text).applied = [] ↔ ∀ rule ∈ set.rules, rule.apply text = none := by
  have hgrows : ∀ (rules : List Rule) (c : Converted),
      c.applied.length ≤ (rules.foldl step c).applied.length := by
    intro rules
    induction rules with
    | nil => exact fun c => le_rfl
    | cons rule rules ih =>
      intro c
      refine le_trans ?_ (ih (step c rule))
      rw [step]
      cases rule.apply c.text with
      | none => exact le_rfl
      | some text => simp
  have hrun : ∀ rules : List Rule, (rules.foldl step ⟨text, []⟩).applied = [] ↔
      ∀ rule ∈ rules, rule.apply text = none := by
    intro rules
    induction rules with
    | nil => simp
    | cons rule rules ih =>
      rw [List.foldl_cons, List.forall_mem_cons, ← ih]
      cases hrule : rule.apply text with
      | none => simp [step, hrule]
      | some next =>
        refine iff_of_false (fun he => ?_) (by simp)
        have hlong := hgrows rules (step ⟨text, []⟩ rule)
        rw [he, step, hrule] at hlong
        exact absurd hlong (by simp)
  exact hrun set.rules

theorem RuleSet.convert_of_apply_eq_none {set : RuleSet} {text : List Char}
    (h : ∀ rule ∈ set.rules, rule.apply text = none) : set.convert text = ⟨text, []⟩ := by
  obtain ⟨rules⟩ := set
  rw [convert]
  induction rules with
  | nil => rfl
  | cons rule rules ih =>
    obtain ⟨hrule, hrest⟩ := List.forall_mem_cons.1 h
    rw [List.foldl_cons, step, hrule]
    exact ih hrest

theorem RuleSet.convert_eq_self_iff {set : RuleSet} {text : List Char} :
    set.convert text = ⟨text, []⟩ ↔ ∀ rule ∈ set.rules, rule.apply text = none := by
  refine ⟨fun h => (applied_convert_eq_nil_iff set text).1 ?_, convert_of_apply_eq_none⟩
  rw [h]

namespace CallRule

/-- The rule finds nothing behind the other rule if it found nothing before. -/
def Spares (other rule : CallRule) : Prop :=
  ∀ text, rule.finds text = false → rule.finds (other.output text) = false

variable {rules : List CallRule} {text : List Char}

private theorem finds_rewriteBy_of_spares {rule : CallRule} (hnamed : ∀ other ∈ rules, Named other.function)
    (h : ∀ other ∈ rules, Spares other rule) (ht : rule.finds text = false) :
    rule.finds (rewriteBy (rules.map .call) text) = false := by
  induction rules generalizing text with
  | nil => exact ht
  | cons other rules ih =>
    obtain ⟨hother, hrules⟩ := List.forall_mem_cons.1 h
    obtain ⟨hf, hnamed⟩ := List.forall_mem_cons.1 hnamed
    rw [List.map_cons, rewriteBy_cons, Rule.output_call hf]
    exact ih hnamed hrules (hother text ht)

/-- Rules that leave nothing of their own, and of which the later ones spare the earlier ones, leave
nothing that any of them would replace. -/
theorem finds_rewriteBy_of_pairwise (hnamed : ∀ rule ∈ rules, Named rule.function)
    (hself : ∀ rule ∈ rules, ∀ text, rule.finds (rule.output text) = false)
    (hpair : rules.Pairwise fun rule other => Spares other rule) :
    ∀ rule ∈ rules, rule.finds (rewriteBy (rules.map .call) text) = false := by
  induction rules generalizing text with
  | nil => exact fun _ hm => absurd hm (by simp)
  | cons first rules ih =>
    obtain ⟨hf, hnamed'⟩ := List.forall_mem_cons.1 hnamed
    obtain ⟨hfirst, hself'⟩ := List.forall_mem_cons.1 hself
    obtain ⟨hspares, hpair'⟩ := List.pairwise_cons.1 hpair
    rw [List.map_cons, rewriteBy_cons, Rule.output_call hf]
    refine List.forall_mem_cons.2 ⟨?_, ih hnamed' hself' hpair'⟩
    exact finds_rewriteBy_of_spares hnamed' hspares (hfirst text)

end CallRule

/-- The calls that become calls of other functions. -/
def wrappingCalls : List CallRule :=
  otherCalls ++ [charDateRule, charCastRule]

/-- The names that stand in front of the parentheses in the new dialect. -/
def newNames : List (List Char) :=
  ["CAST".toList, "to_char".toList, "numeric".toList]

open CallRule in
/-- A rule of a function that has none of these names finds in what the standard calls put into a
text what it finds in the arguments. -/
theorem wraps_wrappingCalls {observer : CallRule} (hf : Named observer.function)
    (hnames : ∀ name ∈ newNames, Apart observer.function name) :
    ∀ rule ∈ wrappingCalls, Wraps observer rule.transform := by
  obtain ⟨hcast, htoChar, hnumeric⟩ : Apart observer.function "CAST".toList ∧
      Apart observer.function "to_char".toList ∧ Apart observer.function "numeric".toList := by
    simpa [newNames] using hnames
  have hfirst : "CAST(".toList = "CAST".toList ++ ['('] := rfl
  have hwraps : ∀ {last : String} (gap : List Char), last.toList = gap ++ [')'] → Inert gap →
      Wraps observer (around "CAST(" last) :=
    fun gap hlast hgap => wraps_around hf hfirst hlast (by decide) hcast hgap
  simp only [wrappingCalls, otherCalls, List.cons_append, List.nil_append, List.forall_mem_cons,
    List.not_mem_nil, false_imp_iff, implies_true, and_true]
  exact ⟨hwraps " AS integer".toList rfl (by decide), hwraps " AS bigint".toList rfl (by decide),
    hwraps " AS double precision".toList rfl (by decide), wraps_decimalCast hf hcast hnumeric,
    wraps_formatCall hf htoChar, wraps_charOfDate hf htoChar, hwraps " AS char".toList rfl (by decide)⟩

theorem apart_newNames : ∀ rule ∈ standardCalls, ∀ name ∈ newNames, Apart rule.function name := by
  simp only [standardCalls, List.forall_mem_cons, List.not_mem_nil, false_imp_iff, implies_true,
    and_true]
  decide

theorem mem_standardCalls_of_wrapping : ∀ rule ∈ wrappingCalls, rule ∈ standardCalls := by
  simp [wrappingCalls, otherCalls, standardCalls]

theorem named_wrappingCalls : ∀ rule ∈ wrappingCalls, Named rule.function :=
  fun rule hm => (tidy_standardCalls rule (mem_standardCalls_of_wrapping rule hm)).2

open CallRule in
theorem apply_output_wrappingCalls {rule : CallRule} (h : rule ∈ wrappingCalls) (text : List Char) :
    rule.apply (rule.output text) = none := by
  have hm := mem_standardCalls_of_wrapping rule h
  have hf := named_wrappingCalls rule h
  exact (settles_output hf (wraps_wrappingCalls hf (apart_newNames rule hm) rule h) text).2

/-- A rule whose replacements lie around their arguments finds behind the calls of other functions
what it found before. -/
theorem finds_output_wrappingCalls {observer rule : CallRule} (ho : observer ∈ standardCalls)
    (hs : observer.Steady) (h : rule ∈ wrappingCalls)
    (hapart : Apart observer.function rule.function) (text : List Char) :
    observer.finds (rule.output text) = observer.finds text := by
  have hf := named_wrappingCalls rule h
  have hnames := apart_newNames rule (mem_standardCalls_of_wrapping rule h)
  exact CallRule.finds_output hf (wraps_wrappingCalls hf hnames rule h) hs hapart
    (wraps_wrappingCalls hs.named (apart_newNames observer ho) rule h) text

theorem finds_charDate {text : List Char} (h : charCastRule.finds text = false) :
    charDateRule.finds text = false := by
  refine CallRule.finds_eq_false_of_accepts steady_charCast.named rfl (fun {args} hsome => ?_) h
  obtain ⟨text, ht⟩ := Option.isSome_iff_exists.1 hsome
  obtain ⟨expr, hargs, hne, -, -⟩ := charOfDate_eq_some.1 ht
  have hcast : around "CAST(" " AS char)" args = some ("CAST(".toList ++ expr ++ " AS char)".toList) :=
    around_eq_some.2 ⟨expr, hargs, hne, rfl⟩
  exact Option.isSome_iff_exists.2 ⟨_, hcast⟩

theorem pairwise_wrappingCalls :
    wrappingCalls.Pairwise fun rule other => CallRule.Spares other rule := by
  have hsteady : ∀ rule ∈ otherCalls, rule.Steady ∧ Apart rule.function "CHAR".toList :=
    fun rule hm => steady_earlierCalls rule (List.mem_cons_of_mem _ (List.mem_cons_of_mem _ hm))
  have hspares : ∀ rule ∈ otherCalls, ∀ other ∈ wrappingCalls,
      Apart rule.function other.function → CallRule.Spares other rule := by
    intro rule hm other hother hapart text ht
    have hwrap : rule ∈ wrappingCalls := List.mem_append_left _ hm
    rw [finds_output_wrappingCalls (mem_standardCalls_of_wrapping rule hwrap) (hsteady rule hm).1
      hother hapart, ht]
  have hdistinct : (otherCalls.map CallRule.function).Pairwise Apart := by decide
  rw [wrappingCalls, List.pairwise_append]
  refine ⟨?_, ?_, ?_⟩
  · refine (List.pairwise_map.1 hdistinct).imp_of_mem fun {rule other} hm hother hapart => ?_
    exact hspares rule hm other (List.mem_append_left _ hother) hapart
  · refine List.pairwise_pair.2 fun text _ => finds_charDate ?_
    exact CallRule.finds_eq_false.2 (apply_output_wrappingCalls (by simp [wrappingCalls]) text)
  · intro rule hm other hother
    refine hspares rule hm other (List.mem_append_right _ hother) ?_
    have hfunction : other.function = "CHAR".toList := by
      rcases List.mem_pair.1 hother with rfl | rfl <;> rfl
    rw [hfunction]
    exact (hsteady rule hm).2

/-- Behind the calls that become calls of other functions, none of their rules finds anything. -/
theorem finds_wrappingCalls (text : List Char) :
    ∀ rule ∈ wrappingCalls, rule.finds (rewriteBy (wrappingCalls.map .call) text) = false :=
  CallRule.finds_rewriteBy_of_pairwise named_wrappingCalls
    (fun _ hm text => CallRule.finds_eq_false.2 (apply_output_wrappingCalls hm text))
    pairwise_wrappingCalls

/-- The calls of dates are found behind the other ones where they were found before. -/
theorem finds_dates {observer : CallRule} (h : observer = dateCastRule ∨ observer = timestampCastRule)
    (text : List Char) :
    observer.finds (rewriteBy (wrappingCalls.map .call) text) = observer.finds text := by
  have hs : observer.Steady := by
    rcases h with rfl | rfl
    · exact steady_dateCast
    · exact steady_timestampCast
  have hm : observer ∈ standardCalls := by
    rcases h with rfl | rfl <;> simp [standardCalls]
  have hapart : ∀ rule ∈ wrappingCalls, Apart observer.function rule.function := by
    simp only [wrappingCalls, otherCalls, List.cons_append, List.nil_append, List.forall_mem_cons,
      List.not_mem_nil, false_imp_iff, implies_true, and_true]
    rcases h with rfl | rfl <;> decide
  have hrules : ∀ rules : List CallRule, (∀ rule ∈ rules, rule ∈ wrappingCalls) → ∀ text,
      observer.finds (rewriteBy (rules.map .call) text) = observer.finds text := by
    intro rules
    induction rules with
    | nil => exact fun _ text => rfl
    | cons rule rules ih =>
      intro hrules text
      obtain ⟨hrule, hrules⟩ := List.forall_mem_cons.1 hrules
      rw [List.map_cons, rewriteBy_cons, Rule.output_call (named_wrappingCalls rule hrule),
        ih hrules, finds_output_wrappingCalls hm hs hrule (hapart rule hrule)]
  exact hrules wrappingCalls (fun _ h => h) text

theorem occurs_hint_rewriteBy (text : List Char) :
    isolationHint.occurs (rewriteBy (earlierPatterns.map .pattern ++ standardCalls.map .call) text) =
      isolationHint.occurs text := by
  have hrules : ∀ rules : List Rule,
      (∀ rule ∈ rules, ∀ text, isolationHint.occurs (rule.output text) = isolationHint.occurs text) →
        ∀ text, isolationHint.occurs (rewriteBy rules text) = isolationHint.occurs text := by
    intro rules
    induction rules with
    | nil => exact fun _ text => rfl
    | cons rule rules ih =>
      intro h text
      obtain ⟨hrule, hrules⟩ := List.forall_mem_cons.1 h
      rw [rewriteBy_cons, ih hrules, hrule]
  refine hrules _ (fun rule hm text => ?_) text
  rcases List.mem_append.1 hm with hm | hm
  · obtain ⟨pattern, hpattern, rfl⟩ := List.mem_map.1 hm
    rw [Rule.output_pattern, occurs_hint_earlierPatterns pattern hpattern]
  · obtain ⟨call, hcall, rfl⟩ := List.mem_map.1 hm
    rw [Rule.output_call (tidy_standardCalls call hcall).2, occurs_hint_standardCalls hcall]

theorem PatternRule.apply_eq_none_iff {rule : PatternRule} {text : List Char} :
    rule.apply text = none ↔ rule.pattern.occurs text = false := by
  rw [apply]
  cases rule.pattern.occurs text <;> simp

/-- In a text that the standard rules have rewritten, none of them finds anything but the one of the
isolation hint and those of `DATE` and `TIMESTAMP`. A second rewrite applies no rule, and returns the
text as it is, exactly if there is no hint in front of the hint that the first one takes away, and the
text behind its first six rules, which end with those of `DATE` and `TIMESTAMP`, holds no call that
one of these two would replace. -/
theorem convert_convert (sql : List Char) :
    (∀ rule ∈ RuleSet.standard.rules,
      rule.name ∉ ["isolation-hint", "date-cast", "timestamp-cast"] →
        rule.apply (applyStandard sql) = none) ∧
    (RuleSet.standard.convert (applyStandard sql) = ⟨applyStandard sql, []⟩ ↔
      isolationHint.occurs (isolationHint.substitute sql) = false ∧
        ∀ rule ∈ [dateCastRule, timestampCastRule],
          rule.apply (rewriteBy (RuleSet.standard.rules.take 6) sql) = none) := by
  have hlast : applyStandard sql = rewriteBy (wrappingCalls.map .call)
      (rewriteBy (RuleSet.standard.rules.take 6) sql) := by
    rw [← rewriteBy_append]
    exact RuleSet.text_convert _ sql
  have hfirst : applyStandard sql = rewriteBy (earlierPatterns.map .pattern ++ standardCalls.map .call)
      (isolationHint.substitute sql) := by
    have hrules : RuleSet.standard.rules = .pattern isolationHintRule ::
        (earlierPatterns.map .pattern ++ standardCalls.map .call) := rfl
    have htext := RuleSet.text_convert .standard sql
    rwa [hrules, rewriteBy_cons, Rule.output_pattern] at htext
  generalize rewriteBy (RuleSet.standard.rules.take 6) sql = dated at hlast ⊢
  generalize applyStandard sql = once at hlast hfirst ⊢
  have hhint : isolationHintRule.apply once = none ↔
      isolationHint.occurs (isolationHint.substitute sql) = false := by
    rw [PatternRule.apply_eq_none_iff, isolationHintRule, hfirst, occurs_hint_rewriteBy]
  have hpatterns : ∀ rule ∈ earlierPatterns, rule.apply once = none := by
    intro rule hm
    rw [PatternRule.apply_eq_none_iff, hfirst, rewriteBy_append]
    exact occurs_standardCalls (standalone_earlierPatterns rule hm) (fun _ h => h)
      (occurs_earlierPatterns _ rule hm)
  have hcalls : ∀ rule ∈ wrappingCalls, rule.apply once = none := by
    intro rule hm
    rw [← CallRule.finds_eq_false, hlast]
    exact finds_wrappingCalls dated rule hm
  have hdates : ∀ {rule : CallRule}, rule = dateCastRule ∨ rule = timestampCastRule →
      (rule.apply once = none ↔ rule.apply dated = none) := by
    intro rule hrule
    rw [← CallRule.finds_eq_false, ← CallRule.finds_eq_false, hlast, finds_dates hrule]
  have hall : ∀ P : Rule → Prop, (∀ rule ∈ RuleSet.standard.rules, P rule) ↔
      P (.pattern isolationHintRule) ∧ (∀ rule ∈ earlierPatterns, P (.pattern rule)) ∧
        P (.call dateCastRule) ∧ P (.call timestampCastRule) ∧
          ∀ rule ∈ wrappingCalls, P (.call rule) := by
    intro P
    simp [RuleSet.standard, standardPatterns, standardCalls, earlierPatterns, wrappingCalls,
      otherCalls, and_assoc]
  rw [List.forall_mem_cons, List.forall_mem_singleton]
  constructor
  · rw [hall]
    exact ⟨fun h => absurd (by decide) h, fun rule hm _ => hpatterns rule hm,
      fun h => absurd (by decide) h, fun h => absurd (by decide) h, fun rule hm _ => hcalls rule hm⟩
  · rw [RuleSet.convert_eq_self_iff, hall, ← hhint, ← hdates (.inl rfl), ← hdates (.inr rfl)]
    exact ⟨fun h => ⟨h.1, h.2.2.1, h.2.2.2.1⟩, fun h => ⟨h.1, hpatterns, h.2.1, h.2.2, hcalls⟩⟩

/-- A parenthesis behind a cast to a date becomes the argument of a call when the text is rewritten
again. -/
theorem not_convert_convert_date : ¬ ∀ sql : List Char,
    (RuleSet.standard.convert (RuleSet.standard.convert sql).text).text =
      (RuleSet.standard.convert sql).text := by
  intro h
  have honce : (RuleSet.standard.convert "DATE(a)(b)".toList).text = "(a)::date(b)".toList := by
    decide +kernel
  have htwice : (RuleSet.standard.convert "(a)::date(b)".toList).text =
      "(a)::(b)::date".toList := by
    decide +kernel
  have hsame := h "DATE(a)(b)".toList
  rw [honce, htwice] at hsame
  exact absurd hsame (by decide)

end ReportMigration.Sql
