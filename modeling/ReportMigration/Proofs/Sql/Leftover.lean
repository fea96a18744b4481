import ReportMigration.Proofs.Sql.Balance
import ReportMigration.Proofs.Sql.Occurrence

/-!
# No phrase is left over

The patterns for dates find nothing in the text that they leave, and no call rule brings in a phrase
that they would find: neither what stands next to a replacement nor a replacement itself makes one.
-/

namespace ReportMigration.Sql

open Text Scan

variable {p q : Scan (List Char)}

/-- Wherever the text takes the place of a phrase, it brings in no phrase. -/
def Hides (p : Scan (List Char)) (meaning : List Char) : Prop :=
  ∀ front back, p.occurs (front ++ (meaning ++ back)) = true →
    p.occurs front = true ∨ p.occurs back = true

private theorem Standalone.not_occurs_of_avoids (hp : Standalone p) {text : List Char}
    (h : Avoids ['c'] text) : p.occurs text = false := by
  cases ho : p.occurs text with
  | false => rfl
  | true =>
    obtain ⟨front, t, back, a, he, -, hr, -⟩ := (hp.occurs_iff text).1 ho
    exact absurd hr (hp.not_reads_of_barren (barren_of_avoids h) he)

theorem Repels.occurs (hp : Standalone p) {x z : List Char} (h : Repels p z)
    (ho : p.occurs (x ++ z) = true) : p.occurs x = true :=
  (hp.occurs_iff x).2 (h.contains ((hp.occurs_iff _).1 ho))

theorem Offset.Valid.hides (hp : Standalone p) {o : Offset} (ho : o.Valid) : Hides p o.meaning := by
  intro front back h
  have hsplit : front ++ (o.meaning ++ back) = (front ++ offsetLead o.sign) ++
      '\'' :: ((o.count ++ ' ' :: o.unit.map asciiLower) ++ '\'' :: back) := by
    rw [Offset.meaning_eq]
    simp only [List.append_assoc, List.cons_append, List.nil_append]
  have hquoted : p.occurs (o.count ++ ' ' :: o.unit.map asciiLower) = false := by
    obtain ⟨w, hw, hunit⟩ := ho.unit
    have hcount : Avoids ['c'] o.count := avoids_of_all (by decide +kernel) ho.count
    have hspace : Avoids ['c'] [' '] := by decide
    have hspell : Avoids ['c'] o.unit := hunit.avoids (by clear hunit; revert w; decide +kernel)
    exact hp.not_occurs_of_avoids (hcount.append (hspace.append hspell.map_asciiLower))
  rw [hsplit, hp.occurs_append (by decide), hp.occurs_append (by decide), hquoted, Bool.false_or,
    Bool.or_eq_true] at h
  exact h.imp_left ((hp.repels_offsetLead ho.sign).occurs hp)

private theorem occurs_nil (hp : Standalone p) : p.occurs [] = false :=
  hp.not_occurs_of_avoids (by decide)

theorem hides_now (hp : Standalone p) : Hides p "now()".toList := by
  intro front back h
  have hsplit : front ++ ("now()".toList ++ back) =
      (front ++ ['n', 'o', 'w']) ++ '(' :: ([] ++ ')' :: back) := by
    simp
  have hword : Repels p ['n', 'o', 'w'] :=
    hp.repels_word (by decide +kernel) ⟨'w', by simp, .inr (by decide)⟩ (by decide)
  rw [hsplit, hp.occurs_append (d := '(') (by decide), hp.occurs_append (d := ')') (by decide),
    occurs_nil hp, Bool.false_or, Bool.or_eq_true] at h
  exact h.imp_left (hword.occurs hp)

/-- Every phrase of a pattern in the text begins where another pattern reads something. -/
def Covers (q p : Scan (List Char)) (before : Option Char) (text : List Char) : Prop :=
  ∀ front t back a, text = front ++ (t ++ back) → t ≠ [] → p ⟨none, t⟩ = some (a, t.length) →
    front.getLast?.any isWord = false → back.head?.any isWord = false →
      ∃ a' n, q ⟨front.getLast?.or before, t ++ back⟩ = some (a', n + 1)

private theorem Covers.behind (hp : Standalone p) {before : Option Char} {front t back : List Char}
    (h : Covers q p before (front ++ (t ++ back))) (ht : t ≠ [])
    (hback : back.head?.any isWord = false) : Covers q p t.getLast? back := by
  rintro front' t' back' a rfl hne hr hfront' hback'
  obtain ⟨c, hc⟩ : ∃ c, t.getLast? = some c := ⟨_, List.getLast?_eq_some_getLast ht⟩
  have hlast : (front ++ (t ++ front')).getLast? = front'.getLast?.or (some c) := by
    rw [List.getLast?_append, List.getLast?_append, hc]
    cases front'.getLast? <;> rfl
  obtain ⟨a', n, hq⟩ := h (front ++ (t ++ front')) t' back' a (by simp) hne hr (by
    rw [hlast]
    cases hl : front'.getLast? with
    | some d => simpa [hl] using hfront'
    | none =>
      obtain rfl := List.getLast?_eq_none_iff.1 hl
      obtain ⟨d, u, rfl, hd, -⟩ := (hp.phrase_of_reads hr).1.first
      simp [hd] at hback) hback'
  refine ⟨a', n, ?_⟩
  rw [hlast] at hq
  rw [hc]
  cases hl : front'.getLast? <;> simpa [hl] using hq

private theorem Covers.not_occurs_front (hp : Standalone p) (hq : Phrasal q) {before : Option Char}
    {front t back a : List Char} (h : Covers q p before (front ++ (t ++ back)))
    (ht : q ⟨front.getLast?.or before, t ++ back⟩ = some (a, t.length))
    (hnone : ∀ front' rest, front = front' ++ rest → rest ≠ [] → ∀ a n,
      q ⟨front'.getLast?.or before, rest ++ (t ++ back)⟩ ≠ some (a, n + 1)) :
    p.occurs front = false := by
  cases ho : p.occurs front with
  | false => rfl
  | true =>
    obtain ⟨front', t', back', a', rfl, hne, hr, hfront', hback'⟩ := (hp.occurs_iff front).1 ho
    have hlong : back' ≠ [] := by
      rintro rfl
      have hstart := (hq.boundaries ht).1
      obtain ⟨c, hl, hword⟩ := (Option.any_eq_true _ _).1 (hp.phrase_of_reads hr).1.last
      rw [List.append_nil, List.getLast?_append, hl] at hstart
      exact absurd hstart (by simp [hword])
    obtain ⟨a'', n, hq'⟩ := h front' t' (back' ++ (t ++ back)) a' (by simp) hne hr hfront' (by
      cases back' with
      | nil => exact absurd rfl hlong
      | cons c back' => exact hback')
    refine absurd ?_ (hnone front' (t' ++ back') rfl (by simp [hne]) a'' n)
    simpa using hq'

private theorem Covers.not_occurs (hp : Standalone p) (hq : Phrasal q)
    (hhides : Yields q fun meaning _ => Hides p meaning) {before : Option Char} {text out : List Char}
    (hr : Substitutes q before text out) (h : Covers q p before text) : p.occurs out = false := by
  induction hr with
  | @nowhere before text hnone =>
    cases ho : p.occurs text with
    | false => rfl
    | true =>
      obtain ⟨front, t, back, a, he, hne, hr, hfront, hback⟩ := (hp.occurs_iff text).1 ho
      obtain ⟨a', n, hq'⟩ := h front t back a he hne hr hfront hback
      exact absurd hq' (hnone front (t ++ back) he (by simp [hne]) a' n)
  | @first before front t back a out hne ht hnone _ ih =>
    have hrest := ih (h.behind hp hne (hq.boundaries ht).2)
    cases ho : p.occurs (front ++ (a ++ out)) with
    | false => rfl
    | true =>
      rcases hhides _ _ _ ht front _ ho with ho | ho
      · rw [h.not_occurs_front hp hq ht hnone] at ho
        cases ho
      · rw [hrest] at ho
        cases ho

theorem Standalone.occurs_substitute_self (hp : Standalone p)
    (hhides : Yields p fun meaning _ => Hides p meaning) (text : List Char) :
    p.occurs (p.substitute text) = false := by
  refine Covers.not_occurs hp hp.toPhrasal hhides (hp.toPhrasal.substitutes text) ?_
  rintro front t back a rfl hne hr hfront hback
  obtain ⟨n, hn⟩ := Nat.exists_eq_succ_of_ne_zero (List.length_pos_iff.2 hne).ne'
  refine ⟨a, n, ?_⟩
  rw [← Nat.succ_eq_add_one, ← hn]
  exact hp.reads_iff.2 ⟨hr, by simpa using hfront, hback⟩

/-- What a pattern leaves holds a phrase of another pattern only if the text did. -/
theorem Standalone.occurs_substitute (hp : Standalone p) (hq : Phrasal q)
    (hhides : Yields q fun meaning _ => Hides p meaning) {text : List Char}
    (h : p.occurs text = false) : p.occurs (q.substitute text) = false := by
  refine Covers.not_occurs hp hq hhides (hq.substitutes text) ?_
  intro front t back a he hne hr hfront hback
  have ho := (hp.occurs_iff text).2 ⟨front, t, back, a, he, hne, hr, hfront, hback⟩
  rw [h] at ho
  cases ho

theorem standalone_earlierPatterns : ∀ rule ∈ earlierPatterns, Standalone rule.pattern := by
  simp only [earlierPatterns, List.forall_mem_cons, List.not_mem_nil, false_imp_iff, implies_true,
    and_true]
  exact ⟨standalone_signFoldedOffset, standalone_dateOffset, standalone_currentTimestamp⟩

theorem hides_earlierPatterns (hp : Standalone p) : ∀ rule ∈ earlierPatterns,
    Yields rule.pattern fun meaning _ => Hides p meaning := by
  simp only [earlierPatterns, List.forall_mem_cons, List.not_mem_nil, false_imp_iff, implies_true,
    and_true]
  refine ⟨yields_signFoldedOffset.mono ?_, yields_dateOffset.mono ?_,
    yields_currentTimestamp.mono ?_⟩
  · rintro _ _ ⟨o, ho, -, rfl⟩
    exact ho.hides hp
  · rintro _ _ ⟨o, ho, -, rfl⟩
    exact ho.hides hp
  · rintro _ _ ⟨_, _, _, -, -, -, -, rfl⟩
    exact hides_now hp

theorem Standalone.occurs_split (hp : Standalone p) {text arg : List Char}
    (h : p.occurs text = false) (ha : arg ∈ Arguments.split text) : p.occurs arg = false := by
  have hpieces : ∀ (first : List Char) (others : List (List Char)),
      p.occurs (first ++ others.flatMap fun piece => ',' :: piece) = false →
        ∀ piece ∈ first :: others, p.occurs piece = false := by
    intro first others
    induction others generalizing first with
    | nil => simp
    | cons piece others ih =>
      intro hocc
      rw [List.flatMap_cons, List.cons_append, hp.occurs_append (by decide), Bool.or_eq_false_iff] at hocc
      exact List.forall_mem_cons.2 ⟨hocc.1, ih piece hocc.2⟩
  obtain ⟨piece, hpiece, rfl⟩ := List.mem_map.1 ha
  have hfree := hpieces _ _ ((Arguments.text_cut ⟨false, 0⟩ text).symm ▸ h) piece hpiece
  cases ho : p.occurs (trim piece) with
  | false => rfl
  | true =>
    have hc := (hp.occurs_iff piece).2 ((hp.occurs_iff _).1 ho).of_trim
    rw [hfree] at hc
    cases hc

/-- Every replacement is a text in parentheses, which holds a phrase only if an argument does, behind
a word and in front of a text that are no part of a phrase. -/
def Silent (p : Scan (List Char)) (transform : List (List Char) → Option (List Char)) : Prop :=
  ∀ {args text}, transform args = some text → ∃ word inside tail,
    text = word ++ '(' :: (inside ++ ')' :: tail) ∧ Repels p word ∧ Avoids ['c'] tail ∧
      ((∀ arg ∈ args, p.occurs arg = false) → p.occurs inside = false)

theorem CallRule.Replaces.not_occurs {rule : CallRule} (hp : Standalone p)
    (hs : Silent p rule.transform) {text next : List Char} (h : rule.Replaces text next)
    (ht : p.occurs text = false) : p.occurs next = false := by
  obtain @⟨front, o, inside, text, hfront, hbound, ho, hinside, hsome, back⟩ := h
  obtain ⟨word, inner, tail, rfl, hword, htail, hinner⟩ := hs hsome
  obtain ⟨name, blanks, rfl, -, -⟩ := ho
  have hbefore : front ++ (name ++ (blanks ++ ['(']) ++ (inside ++ ')' :: back)) =
      (front ++ (name ++ blanks)) ++ '(' :: (inside ++ ')' :: back) := by simp
  have hafter : front ++ (word ++ '(' :: (inner ++ ')' :: tail) ++ back) =
      (front ++ word) ++ '(' :: (inner ++ ')' :: (tail ++ back)) := by simp
  have hparts := ht
  rw [hbefore, hp.occurs_append (by decide), hp.occurs_append (by decide), Bool.or_eq_false_iff,
    Bool.or_eq_false_iff] at hparts
  obtain ⟨hname, harg, hback⟩ := hparts
  rw [hafter, hp.occurs_append (by decide), hp.occurs_append (by decide), Bool.or_eq_false_iff,
    Bool.or_eq_false_iff]
  refine ⟨Bool.eq_false_iff.2 fun hocc => ?_, hinner fun arg ha => hp.occurs_split harg ha,
    Bool.eq_false_iff.2 fun hocc => ?_⟩
  · have hocc := hword.occurs hp hocc
    rcases hbound with hlast | ⟨front', args', text', hsome', rfl⟩
    · have hc := ((hp.occurs_iff front).1 hocc).append_right hlast hp (name ++ blanks)
      rw [← hp.occurs_iff, hname] at hc
      cases hc
    · -- The phrase would stand in front of the last parenthesis of that replacement.
      obtain ⟨word', inner', tail', rfl, -, htail', -⟩ := hs hsome'
      have hsplit : ∀ rest, front' ++ (word' ++ '(' :: (inner' ++ ')' :: tail')) ++ rest =
          (front' ++ (word' ++ '(' :: inner')) ++ ')' :: (tail' ++ rest) := by simp
      have hfree := hp.not_occurs_of_avoids htail'
      have hwhole := hsplit []
      rw [List.append_nil, List.append_nil] at hwhole
      rw [hwhole, hp.occurs_append (by decide), hfree, Bool.or_false] at hocc
      rw [hsplit, hp.occurs_append (by decide), hocc] at ht
      cases ht
  · have hc := hp.contains_of_append htail ((hp.occurs_iff _).1 hocc)
    rw [← hp.occurs_iff, hback] at hc
    cases hc

theorem silent_around (hp : Standalone p) {first last : String} {word gap tail : List Char}
    (hfirst : first.toList = word ++ ['(']) (hlast : last.toList = gap ++ ')' :: tail)
    (hword : Repels p word) (hgap : Repels p gap) (htail : Avoids ['c'] tail) :
    Silent p (around first last) := by
  intro args text h
  obtain ⟨expr, rfl, -, rfl⟩ := around_eq_some.1 h
  refine ⟨word, expr ++ gap, tail, by simp [hfirst, hlast], hword, htail, fun hargs => ?_⟩
  exact Bool.eq_false_iff.2 fun ho =>
    Bool.eq_false_iff.1 (hargs expr List.mem_cons_self) (hgap.occurs hp ho)

private theorem repels_cast (hp : Standalone p) : Repels p "CAST".toList :=
  hp.repels_word (by decide +kernel) ⟨'C', by decide, .inl (by decide)⟩ (by decide)

private theorem repels_toChar (hp : Standalone p) : Repels p "to_char".toList :=
  hp.repels_word (by decide +kernel) ⟨'c', by decide, .inl (by decide)⟩ (by decide)

theorem silent_decimalCast (hp : Standalone p) : Silent p decimalCast := by
  intro args text h
  obtain ⟨expr, precision, scale, rfl, -, hprecision, hscale, rfl⟩ := decimalCast_eq_some.1 h
  have hcast : "CAST(".toList = "CAST".toList ++ ['('] := rfl
  have hnumeric : " AS numeric(".toList = " AS numeric".toList ++ ['('] := rfl
  have hends : "))".toList = [')', ')'] := rfl
  have hgap : Repels p " AS numeric".toList :=
    hp.repels_blank (by decide) (by decide) (by decide)
  have hdigits : ∀ {literal : List Char}, isIntegerLiteral literal = true →
      p.occurs literal = false := by
    intro literal hl
    rw [isIntegerLiteral, Bool.and_eq_true] at hl
    exact hp.not_occurs_of_avoids (avoids_of_all (by decide +kernel) hl.2)
  refine ⟨"CAST".toList,
    (expr ++ " AS numeric".toList) ++ '(' :: ((precision ++ ',' :: scale) ++ ')' :: []), [], ?_,
    repels_cast hp, by decide, fun hargs => ?_⟩
  · rw [hcast, hnumeric, hends]
    generalize "CAST".toList = cast
    generalize " AS numeric".toList = numeric
    simp
  · have hexpr : p.occurs (expr ++ " AS numeric".toList) = false := Bool.eq_false_iff.2 fun ho =>
      Bool.eq_false_iff.1 (hargs expr (by simp)) (hgap.occurs hp ho)
    rw [hp.occurs_append (by decide), hp.occurs_append (by decide), hp.occurs_append (by decide),
      hexpr, hdigits hprecision, hdigits hscale, hp.not_occurs_of_avoids (by decide)]
    rfl

theorem silent_formatCall (hp : Standalone p) : Silent p formatCall := by
  intro args text h
  obtain ⟨expr, format, rfl, -, -, rfl⟩ := formatCall_eq_some.1 h
  have htoChar : "to_char(".toList = "to_char".toList ++ ['('] := rfl
  have hcomma : ", ".toList = [',', ' '] := rfl
  refine ⟨"to_char".toList, expr ++ ',' :: ([' '] ++ format), [], ?_, repels_toChar hp, by decide,
    fun hargs => ?_⟩
  · rw [htoChar, hcomma]
    generalize "to_char".toList = toChar
    simp
  · rw [hp.occurs_append (by decide), hargs expr (by simp), Bool.false_or]
    refine Bool.eq_false_iff.2 fun ho => Bool.eq_false_iff.1 (hargs format (by simp)) ?_
    exact (hp.occurs_iff format).2 (hp.contains_of_append (by decide) ((hp.occurs_iff _).1 ho))

theorem silent_charOfDate (hp : Standalone p) : Silent p charOfDate := by
  intro args text h
  obtain ⟨expr, rfl, hne, -, rfl⟩ := charOfDate_eq_some.1 h
  have hgap : Repels p ", 'YYYY-MM-DD'".toList :=
    hp.repels_comma (by decide) (by decide)
  have hlast : ", 'YYYY-MM-DD')".toList = ", 'YYYY-MM-DD'".toList ++ ')' :: [] := rfl
  have haround : Silent p (around "to_char(" ", 'YYYY-MM-DD')") :=
    silent_around hp rfl hlast (repels_toChar hp) hgap (by decide)
  exact haround (around_eq_some.2 ⟨expr, rfl, hne, rfl⟩)

theorem silent_standardCalls (hp : Standalone p) : ∀ rule ∈ standardCalls, Silent p rule.transform := by
  have hcast : ∀ {last : String} (gap : List Char), last.toList = gap ++ ')' :: [] →
      gap.head?.any isBlank = true → gap[1]?.map foldCase = some 'a' →
      Barren gap → Silent p (around "CAST(" last) :=
    fun gap hlast hb hl hi => silent_around hp rfl hlast (repels_cast hp) (hp.repels_blank hb hl hi)
      (by decide)
  have hparen : ∀ {last : String} (tail : List Char), last.toList = [] ++ ')' :: tail →
      Avoids ['c'] tail → Silent p (around "(" last) :=
    fun tail hlast ht => silent_around hp rfl hlast (repels_nil p) (repels_nil p) ht
  simp only [standardCalls, List.forall_mem_cons, List.not_mem_nil, false_imp_iff, implies_true,
    and_true]
  exact ⟨hparen "::date".toList rfl (by decide), hparen "::timestamp".toList rfl (by decide),
    hcast " AS integer".toList rfl (by decide) (by decide) (by decide),
    hcast " AS bigint".toList rfl (by decide) (by decide) (by decide),
    hcast " AS double precision".toList rfl (by decide) (by decide) (by decide),
    silent_decimalCast hp, silent_formatCall hp, silent_charOfDate hp,
    hcast " AS char".toList rfl (by decide) (by decide) (by decide)⟩

theorem Standalone.occurs_output (hp : Standalone p) {rule : Rule}
    (hr : rule ∈ RuleSet.standard.rules.tail) {text : List Char} (h : p.occurs text = false) :
    p.occurs (rule.output text) = false := by
  have hsplit : RuleSet.standard.rules.tail =
      earlierPatterns.map Rule.pattern ++ standardCalls.map Rule.call := rfl
  rw [hsplit, List.mem_append] at hr
  rcases hr with hr | hr
  · obtain ⟨pattern, hpattern, rfl⟩ := List.mem_map.1 hr
    rw [Rule.output_pattern]
    exact hp.occurs_substitute (phrasal_earlierPatterns pattern hpattern)
      (hides_earlierPatterns hp pattern hpattern) h
  · obtain ⟨call, hcall, rfl⟩ := List.mem_map.1 hr
    obtain ⟨htidy, hnamed⟩ := tidy_standardCalls call hcall
    rw [Rule.output_call hnamed]
    exact (CallRule.rewrites_output htidy hnamed text).invariant
      (P := fun text => p.occurs text = false)
      (fun hstep => hstep.not_occurs hp (silent_standardCalls hp call hcall)) h

theorem Standalone.occurs_rewriteBy (hp : Standalone p) {rules : List Rule}
    (hrules : ∀ rule ∈ rules, rule ∈ RuleSet.standard.rules.tail) {text : List Char}
    (h : p.occurs text = false) : p.occurs (rewriteBy rules text) = false := by
  induction rules generalizing text with
  | nil => exact h
  | cons rule rules ih =>
    obtain ⟨hrule, hrest⟩ := List.forall_mem_cons.1 hrules
    rw [rewriteBy_cons]
    exact ih hrest (hp.occurs_output hrule h)

theorem occurs_rewriteBy_of_mem {rules : List Rule}
    (hrules : ∀ rule ∈ rules, rule ∈ RuleSet.standard.rules.tail) {rule : PatternRule}
    (hr : rule ∈ earlierPatterns) (hm : .pattern rule ∈ rules) (text : List Char) :
    rule.pattern.occurs (rewriteBy rules text) = false := by
  have hp := standalone_earlierPatterns rule hr
  obtain ⟨first, last, rfl⟩ := List.append_of_mem hm
  rw [rewriteBy_append, rewriteBy_cons, Rule.output_pattern]
  refine hp.occurs_rewriteBy (fun other hother => hrules other (by simp [hother])) ?_
  exact hp.occurs_substitute_self (hides_earlierPatterns hp rule hr) _

theorem occurs_earlierPatterns (text : List Char) : ∀ rule ∈ earlierPatterns,
    rule.pattern.occurs (rewriteBy (earlierPatterns.map .pattern) text) = false :=
  fun _ hr => occurs_rewriteBy_of_mem (fun _ hm => List.mem_append_left _ hm) hr
    (List.mem_map_of_mem hr) text

theorem occurs_standardCalls (hp : Standalone p) {rules : List CallRule}
    (hrules : ∀ rule ∈ rules, rule ∈ standardCalls) {text : List Char} (h : p.occurs text = false) :
    p.occurs (rewriteBy (rules.map .call) text) = false := by
  refine hp.occurs_rewriteBy (fun rule hm => ?_) h
  obtain ⟨call, hcall, rfl⟩ := List.mem_map.1 hm
  exact List.mem_append_right (earlierPatterns.map Rule.pattern)
    (List.mem_map_of_mem (hrules call hcall))

theorem Phrasal.yields_ne_nil (hp : Phrasal p) : Yields p fun _ hit => hit ≠ [] := by
  refine hp.phrase.mono fun meaning hit h => ?_
  obtain ⟨c, t, rfl, -⟩ := h.first
  exact List.cons_ne_nil c t

end ReportMigration.Sql
