import ReportMigration.Proofs.Sql.SecondRewrite

/-!
# No rule undoes another

A text is weighed by its letters, parentheses, colons and quotes. Every standard rule that is applied
leaves a heavier text, so the rules cannot lead back to the text that they were given: it comes back
unchanged exactly if no rule was applied.
-/

namespace ReportMigration.Sql

open Text Scan

/-- What the characters that count weigh, in either case. -/
def weights : List (Char × ℤ) :=
  [('s', 1), ('v', -1), ('w', -2), ('(', 4), (':', 1), ('\'', 2)]

def weight (c : Char) : ℤ :=
  (weights.lookup (foldCase c)).getD 0

def weigh (text : List Char) : ℤ :=
  (text.map weight).sum

@[simp] theorem weigh_nil : weigh [] = 0 := rfl

theorem weigh_cons (c : Char) (text : List Char) : weigh (c :: text) = weight c + weigh text := by
  rw [weigh, List.map_cons, List.sum_cons, weigh]

theorem weigh_append (s t : List Char) : weigh (s ++ t) = weigh s + weigh t := by
  rw [weigh, List.map_append, List.sum_append, weigh, weigh]

theorem weigh_flatMap {α : Type} (f : α → List Char) (l : List α) :
    weigh (l.flatMap f) = (l.map fun a => weigh (f a)).sum := by
  induction l with
  | nil => rfl
  | cons a l ih => rw [List.flatMap_cons, weigh_append, ih, List.map_cons, List.sum_cons]

theorem weigh_congr {s t : List Char} (h : s.map foldCase = t.map foldCase) : weigh s = weigh t := by
  have hfold : ∀ text, weigh text =
      ((text.map foldCase).map fun c => (weights.lookup c).getD 0).sum := by
    intro text
    rw [weigh, List.map_map]
    rfl
  rw [hfold, hfold, h]

theorem weigh_of_spells {word : String} {text : List Char} (h : Spells word text) :
    weigh text = weigh word.toList :=
  weigh_congr h

theorem weigh_of_avoids {text : List Char} (h : Avoids (weights.map Prod.fst) text) :
    weigh text = 0 := by
  refine List.sum_eq_zero fun n hn => ?_
  obtain ⟨c, hc, rfl⟩ := List.mem_map.1 hn
  have hnone : weights.lookup (foldCase c) = none := by
    rw [List.lookup_eq_none_iff]
    intro entry he
    have hne : foldCase c ≠ entry.1 := fun heq => h c hc (heq ▸ List.mem_map_of_mem he)
    simpa using hne
  rw [weight, hnone, Option.getD_none]

theorem weigh_of_all {test : Char → Bool} (hs : sparing (weights.map Prod.fst) test = true)
    {text : List Char} (h : text.all test = true) : weigh text = 0 :=
  weigh_of_avoids (avoids_of_all hs h)

theorem weigh_of_isBlank {text : List Char} (h : text.all isBlank = true) : weigh text = 0 :=
  weigh_of_all (by decide +kernel) h

theorem weigh_map_asciiLower (text : List Char) : weigh (text.map asciiLower) = weigh text := by
  refine weigh_congr ?_
  rw [List.map_map]
  exact List.map_congr_left fun c _ => foldCase_asciiLower c

theorem weigh_trim (text : List Char) : weigh (trim text) = weigh text := by
  obtain ⟨lead, trail, hl, ht, he⟩ := exists_trim text
  conv => rhs; rw [he]
  rw [weigh_append, weigh_append, weigh_of_isBlank hl, weigh_of_isBlank ht, zero_add, add_zero]

theorem weigh_split (text : List Char) :
    ((Arguments.split text).map weigh).sum = weigh text := by
  have hcomma : ∀ piece : List Char, weigh (',' :: piece) = weigh piece := by
    intro piece
    rw [weigh_cons, show weight ',' = 0 from rfl, zero_add]
  have htext := Arguments.text_cut ⟨false, 0⟩ text
  conv => rhs; rw [← htext]
  rw [weigh_append, weigh_flatMap]
  simp [Arguments.split, Arguments.pieces, weigh_trim, hcomma, Function.comp_def]

/-- Whatever the scanner reads, it means a heavier text. -/
def Gains (p : Scan (List Char)) : Prop :=
  Yields p fun meaning hit => weigh hit < weigh meaning

theorem Gains.weigh_substitute {p : Scan (List Char)} (hp : Gains p) {text : List Char}
    (h : p.occurs text = true) : weigh text < weigh (p.substitute text) := by
  have hhit : ∀ hit meaning, .hit hit meaning ∈ p.segments text → weigh hit < weigh meaning :=
    fun hit meaning hm => hp.mem_segmentsFrom 0 none text hm
  obtain ⟨segment, hsegment, hits⟩ := List.any_eq_true.1 h
  conv => lhs; rw [← segments_text p text]
  rw [substitute, weigh_flatMap, weigh_flatMap]
  refine List.sum_lt_sum _ _ (fun s hs => ?_) ⟨segment, hsegment, ?_⟩
  · cases s with
    | plain c => exact le_rfl
    | hit hit meaning => exact (hhit hit meaning hs).le
  · cases segment with
    | plain c => cases hits
    | hit hit meaning => exact hhit hit meaning hsegment

theorem gains_isolationHint : Gains isolationHint := by
  have hlevels : ∀ w ∈ ["UR", "CS", "RS", "RR"], weigh w.toList ≤ 1 := by decide
  have hpure : ∀ a : List Char, Yields (pure a : Scan (List Char)) fun meaning hit =>
      meaning = a ∧ hit = [] := fun a => yields_pure a
  refine ((yields_run₁ isBlank).bind fun _ => (yields_letters "WITH".toList).bind fun _ =>
    (yields_run₁ isBlank).bind fun _ => (yields_anyKeyword ["UR", "CS", "RS", "RR"]).bind fun _ =>
      (yields_guard _).bind fun _ => Yields.orElse
        ((yields_run isBlank).bind fun _ => (yields_one (· == ';')).bind fun _ =>
          (yields_run isBlank).bind fun _ => (yields_guard _).bind fun _ => hpure [';'])
        ((yields_run isBlank).bind fun _ => (yields_guard _).bind fun _ => hpure [])).mono ?_
  rintro meaning _ ⟨-, b₁, _, rfl, hb₁, -, w, _, rfl, hw, -, b₂, _, rfl, hb₂, -, level, _, rfl,
    ⟨l, hl, hlevel⟩, -, _, _, rfl, rfl, hend⟩
  have hwith : weigh w = -2 := weigh_congr hw
  have hlevel : weigh level ≤ 1 := (weigh_congr hlevel).trans_le (hlevels l hl)
  simp only [weigh_append, weigh_of_isBlank hb₁, weigh_of_isBlank hb₂, hwith, weigh_nil]
  have hrest : ∀ {rest}, weigh rest = 0 → weigh meaning = 0 →
      0 + (-2 + (0 + (weigh level + (0 + weigh rest)))) < weigh meaning := by
    intro rest hr hm
    omega
  rcases hend with ⟨-, b₃, _, rfl, hb₃, -, _, _, rfl, ⟨x, rfl, hx⟩, -, b₄, _, rfl, hb₄, -, _, _,
    rfl, rfl, rfl, rfl⟩ | ⟨-, b₃, _, rfl, hb₃, -, _, _, rfl, rfl, rfl, rfl⟩
  · obtain rfl : x = ';' := by simpa using hx
    refine hrest ?_ rfl
    simp only [weigh_append, weigh_of_isBlank hb₃, weigh_of_isBlank hb₄, weigh_nil]
    rfl
  · refine hrest ?_ rfl
    simp only [weigh_append, weigh_of_isBlank hb₃, weigh_nil, add_zero]

/-- A date offset weighs no more than its plural S, and the quotes around the interval twice as much. -/
theorem Offset.Valid.weigh_lt {o : Offset} (h : o.Valid) : weigh o.phrase < weigh o.meaning := by
  have hunits : ∀ w ∈ ["DAY", "MONTH", "YEAR"], weigh w.toList = 0 := by decide
  have hcurrent : weigh o.current = 0 := weigh_of_spells h.current
  have hgap : weigh o.gap = 0 := weigh_of_all (by decide +kernel) h.gap
  have hdate : weigh o.date = 0 := weigh_of_spells h.date
  have hsigns : weigh o.signs = 0 := weigh_of_all (by decide +kernel) h.signs
  have hcount : weigh o.count = 0 := weigh_of_all (by decide +kernel) h.count
  have hspace : weigh o.space = 0 := weigh_of_isBlank h.space
  have hunit : weigh o.unit = 0 := by
    obtain ⟨w, hw, hu⟩ := h.unit
    rw [weigh_of_spells hu, hunits w hw]
  have hplural : weigh o.plural ≤ 1 := by
    rcases h.plural with hs | hn
    · exact (weigh_of_spells hs).le
    · rw [hn]
      decide
  have hsign : weigh [o.sign] = 0 := by
    rcases h.sign with hs | hs <;> rw [hs] <;> rfl
  have hblank : weigh [' '] = 0 := by decide
  have hquote : weigh ['\''] = 2 := by decide
  have haround : ∀ first second, weigh first = 0 → weigh second = 1 →
      weigh (first ++ [o.sign] ++ second ++ o.count ++ [' '] ++ o.unit.map asciiLower ++ ['\'']) = 3 := by
    intro first second hfirst hsecond
    simp only [weigh_append, hfirst, hsecond, hsign, hcount, hblank, weigh_map_asciiLower, hunit, hquote]
    norm_num
  have hmeaning : weigh o.meaning = 3 :=
    haround "current_date ".toList " INTERVAL '".toList (by decide) (by decide)
  rw [hmeaning, Offset.phrase]
  simp only [weigh_append, hcurrent, hgap, hdate, hsigns, hcount, hspace, hunit]
  omega

theorem gains_currentTimestamp : Gains currentTimestamp := by
  refine yields_currentTimestamp.mono ?_
  rintro _ _ ⟨current, gap, timestamp, rfl, hcurrent, hgap, htimestamp, rfl⟩
  rw [weigh_append, weigh_append, weigh_of_spells hcurrent, weigh_of_isBlank hgap,
    weigh_of_spells htimestamp]
  decide

theorem gains_standardPatterns : ∀ rule ∈ standardPatterns, Gains rule.pattern := by
  have hoffset : ∀ meaning hit : List Char,
      (∃ o : Offset, o.Valid ∧ hit = o.phrase ∧ meaning = o.meaning) → weigh hit < weigh meaning := by
    rintro _ _ ⟨o, ho, rfl, rfl⟩
    exact ho.weigh_lt
  simp only [standardPatterns, List.forall_mem_cons, List.not_mem_nil, false_imp_iff, implies_true,
    and_true]
  exact ⟨gains_isolationHint, yields_signFoldedOffset.mono hoffset, yields_dateOffset.mono hoffset,
    gains_currentTimestamp⟩

/-- What takes the place of a call weighs more than its name, its parenthesis and its arguments. -/
def Outweighs (rule : CallRule) : Prop :=
  ∀ {args text}, rule.transform args = some text →
    weigh rule.function + 4 + (args.map weigh).sum < weigh text

theorem outweighs_around {name function first last : String}
    (h : weigh function.toList + 4 < weigh first.toList + weigh last.toList) :
    Outweighs (callRule name function (around first last)) := by
  intro args text ht
  obtain ⟨expr, rfl, -, rfl⟩ := around_eq_some.1 ht
  rw [weigh_append, weigh_append]
  simp only [callRule, List.map_cons, List.map_nil, List.sum_cons, List.sum_nil]
  omega

theorem outweighs_standardCalls : ∀ rule ∈ standardCalls, Outweighs rule := by
  have hdecimal : Outweighs decimalCastRule := by
    intro args text ht
    obtain ⟨expr, precision, scale, rfl, -, -, -, rfl⟩ := decimalCast_eq_some.1 ht
    have hfirst : weigh "CAST(".toList = 5 := by decide
    have hsecond : weigh " AS numeric(".toList = 5 := by decide
    have hlast : weigh "))".toList = 0 := by decide
    have hcomma : weigh [','] = 0 := by decide
    have hname : weigh decimalCastRule.function = 0 := by decide
    simp only [weigh_append, hfirst, hsecond, hlast, hcomma, hname, List.map_cons, List.map_nil,
      List.sum_cons, List.sum_nil]
    omega
  have hformat : Outweighs varcharFormatRule := by
    intro args text ht
    obtain ⟨expr, format, rfl, -, -, rfl⟩ := formatCall_eq_some.1 ht
    have hfirst : weigh "to_char(".toList = 4 := by decide
    have hcomma : weigh ", ".toList = 0 := by decide
    have hlast : weigh [')'] = 0 := by decide
    have hname : weigh varcharFormatRule.function = -1 := by decide
    simp only [weigh_append, hfirst, hcomma, hlast, hname, List.map_cons, List.map_nil,
      List.sum_cons, List.sum_nil]
    omega
  have hdate : Outweighs charDateRule := by
    intro args text ht
    obtain ⟨expr, rfl, hne, -, rfl⟩ := charOfDate_eq_some.1 ht
    have haround : Outweighs (callRule "char-date" "CHAR" (around "to_char(" ", 'YYYY-MM-DD')")) :=
      outweighs_around (by decide)
    exact haround (around_eq_some.2 ⟨expr, rfl, hne, rfl⟩)
  simp only [standardCalls, List.forall_mem_cons, List.not_mem_nil, false_imp_iff, implies_true,
    and_true]
  exact ⟨outweighs_around (by decide), outweighs_around (by decide), outweighs_around (by decide),
    outweighs_around (by decide), outweighs_around (by decide), hdecimal, hformat, hdate,
    outweighs_around (by decide)⟩

namespace CallRule

variable {rule : CallRule}

theorem Replaces.weigh_lt (hr : Outweighs rule) {text next : List Char} (h : rule.Replaces text next) :
    weigh text < weigh next := by
  obtain @⟨front, o, inside, text, -, -, ⟨name, blanks, rfl, hname, hblanks⟩, -, ht, back⟩ := h
  have hgain := hr ht
  have hopen : weigh ['('] = 4 := by decide
  have hclose : weigh (')' :: back) = weigh back := by
    rw [weigh_cons, show weight ')' = 0 from rfl, zero_add]
  rw [weigh_split] at hgain
  simp only [weigh_append, weigh_congr hname, weigh_of_isBlank hblanks, hopen, hclose]
  omega

theorem Rewrites.weigh_le (hr : Outweighs rule) {n : ℕ} {text last : List Char}
    (h : rule.Rewrites n text last) : weigh text + n ≤ weigh last := by
  induction h with
  | refl text => simp
  | step h _ ih =>
    have hlt := h.weigh_lt hr
    push_cast
    omega

end CallRule

theorem weigh_lt_of_apply {rule : Rule} (hr : rule ∈ RuleSet.standard.rules) {text next : List Char}
    (h : rule.apply text = some next) : weigh text < weigh next := by
  rcases List.mem_append.1 hr with hr | hr
  · obtain ⟨pattern, hpattern, rfl⟩ := List.mem_map.1 hr
    have happly : pattern.apply text = some next := h
    rw [PatternRule.apply] at happly
    split at happly
    · next ho =>
      cases happly
      exact (gains_standardPatterns pattern hpattern).weigh_substitute ho
    · cases happly
  · obtain ⟨call, hcall, rfl⟩ := List.mem_map.1 hr
    obtain ⟨htidy, hnamed⟩ := tidy_standardCalls call hcall
    have happly : call.apply text = some next := h
    have hle := (CallRule.rewrites_output htidy hnamed text).weigh_le
      (outweighs_standardCalls call hcall)
    rw [CallRule.apply_eq_ite hnamed.isWord] at happly
    split at happly
    · cases happly
    · next hne =>
      cases happly
      omega

theorem weigh_step {rule : Rule} (hr : rule ∈ RuleSet.standard.rules) {text : List Char}
    {c : Converted} (h : weigh text + c.applied.length ≤ weigh c.text) :
    weigh text + (RuleSet.step c rule).applied.length ≤ weigh (RuleSet.step c rule).text := by
  rw [RuleSet.step]
  cases happly : rule.apply c.text with
  | none => exact h
  | some next =>
    have hlt := weigh_lt_of_apply hr happly
    simp only [List.length_append, List.length_singleton]
    push_cast
    omega

theorem weigh_convert (text : List Char) :
    weigh text + (RuleSet.standard.convert text).applied.length ≤
      weigh (RuleSet.standard.convert text).text := by
  have hrun : ∀ rules : List Rule, (∀ rule ∈ rules, rule ∈ RuleSet.standard.rules) →
      ∀ c : Converted, weigh text + c.applied.length ≤ weigh c.text →
        weigh text + (rules.foldl RuleSet.step c).applied.length ≤
          weigh (rules.foldl RuleSet.step c).text := by
    intro rules
    induction rules with
    | nil => exact fun _ _ h => h
    | cons rule rules ih =>
      intro hrules c h
      obtain ⟨hrule, hrest⟩ := List.forall_mem_cons.1 hrules
      exact ih hrest _ (weigh_step hrule h)
  exact hrun _ (fun _ h => h) ⟨text, []⟩ (by simp)

theorem yields_standardPatterns_ne_nil :
    ∀ rule ∈ standardPatterns, Yields rule.pattern fun _ hit => hit ≠ [] := by
  have hhint : Yields isolationHint fun _ hit => hit ≠ [] := by
    rintro ⟨before, ahead⟩ meaning n h
    have hmoves : Moves isolationHint := (moves_run₁ isBlank).bind _
    have hn := hmoves _ _ _ h
    cases ahead with
    | nil => cases h
    | cons c rest => simp [hn.ne']
  exact List.forall_mem_cons.2
    ⟨hhint, fun rule hr => (phrasal_earlierPatterns rule hr).yields_ne_nil⟩

/-- The standard rules return a text unchanged exactly if none of them is applied, and none is
applied exactly if none of the patterns is read at any place and every closed call of their functions
outside literals has arguments that the transform declines. -/
theorem convert_text_eq_iff (sql : List Char) :
    ((RuleSet.standard.convert sql).text = sql ↔ (RuleSet.standard.convert sql).applied = []) ∧
    ((RuleSet.standard.convert sql).applied = [] ↔
      (∀ rule ∈ standardPatterns, ∀ front rest, sql = front ++ rest →
        rule.pattern ⟨front.getLast?, rest⟩ = none) ∧
      ∀ rule ∈ standardCalls, ∀ front o inside back, sql = front ++ (o ++ (inside ++ ')' :: back)) →
        Unquoted front → front.getLast?.any isWord = false → Opens rule.function o →
          Closed inside → rule.transform (Arguments.split inside) = none) := by
  have hnone := RuleSet.applied_convert_eq_nil_iff .standard sql
  constructor
  · constructor
    · intro he
      have hle := weigh_convert sql
      rw [he] at hle
      exact List.length_eq_zero_iff.1 (by omega)
    · intro ha
      rw [RuleSet.convert_of_apply_eq_none (hnone.1 ha)]
  · have hpattern : ∀ rule ∈ standardPatterns, rule.apply sql = none ↔
        ∀ front rest, sql = front ++ rest → rule.pattern ⟨front.getLast?, rest⟩ = none :=
      fun rule hr => PatternRule.apply_eq_none_iff.trans
        (occurs_eq_false_iff (yields_standardPatterns_ne_nil rule hr) sql)
    have hcall : ∀ rule ∈ standardCalls, rule.apply sql = none ↔
        ∀ front o inside back, sql = front ++ (o ++ (inside ++ ')' :: back)) → Unquoted front →
          front.getLast?.any isWord = false → Opens rule.function o → Closed inside →
            rule.transform (Arguments.split inside) = none := by
      intro rule hr
      rw [← CallRule.finds_eq_false, ← Bool.not_eq_true,
        CallRule.finds_iff (tidy_standardCalls rule hr).2]
      simp only [not_exists, not_and, Bool.not_eq_true, Option.isSome_eq_false_iff,
        Option.isNone_iff_eq_none]
    rw [hnone, RuleSet.standard, List.forall_mem_append, List.forall_mem_map, List.forall_mem_map]
    exact and_congr (forall₂_congr hpattern) (forall₂_congr hcall)

end ReportMigration.Sql
