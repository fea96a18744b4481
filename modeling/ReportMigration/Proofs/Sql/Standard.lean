import ReportMigration.Proofs.Sql.Mention
import ReportMigration.Sql.Standard

/-!
# Rules in order

What the standard rules make of a text, one after the other, and what all of those in front of the
rules of `CHAR` have in common: they settle what stands in parentheses apart from what stands around
them, and leave the calls of another function where they are.
-/

namespace ReportMigration.Sql

open Text Scan

/-- The text after a rule, whether the rule changes it or not. -/
def Rule.output (rule : Rule) (text : List Char) : List Char :=
  (rule.apply text).getD text

/-- The text after rules, in the order of their application. -/
def rewriteBy (rules : List Rule) (text : List Char) : List Char :=
  rules.foldl (fun text rule => rule.output text) text

theorem rewriteBy_nil (text : List Char) : rewriteBy [] text = text :=
  rfl

theorem rewriteBy_cons (rule : Rule) (rules : List Rule) (text : List Char) :
    rewriteBy (rule :: rules) text = rewriteBy rules (rule.output text) :=
  rfl

theorem rewriteBy_append (rules others : List Rule) (text : List Char) :
    rewriteBy (rules ++ others) text = rewriteBy others (rewriteBy rules text) :=
  List.foldl_append

theorem RuleSet.text_convert (set : RuleSet) (text : List Char) :
    (set.convert text).text = rewriteBy set.rules text := by
  have hstep : ∀ (rules : List Rule) (c : Converted),
      (rules.foldl step c).text = rewriteBy rules c.text := by
    intro rules
    induction rules with
    | nil => exact fun c => rfl
    | cons rule rules ih =>
      intro c
      have hc : (step c rule).text = rule.output c.text := by
        rw [step, Rule.output]
        cases rule.apply c.text <;> rfl
      rw [List.foldl_cons, ih, hc]
      rfl
  exact hstep set.rules ⟨text, []⟩

theorem Rule.output_pattern (rule : PatternRule) (text : List Char) :
    (Rule.pattern rule).output text = rule.pattern.substitute text := by
  rw [output, apply, PatternRule.apply]
  by_cases h : rule.pattern.occurs text = true
  · rw [if_pos h, Option.getD_some]
  · rw [if_neg h, Option.getD_none, substitute_eq_self (by simpa using h)]

theorem Rule.output_call {rule : CallRule} (hf : Named rule.function) (text : List Char) :
    (Rule.call rule).output text = rule.output text :=
  CallRule.getD_apply hf.isWord text

/-- A call rule that puts its arguments between fixed texts. -/
structure CallRule.Steady (rule : CallRule) : Prop where
  named : Named rule.function
  tidy : Tidy rule.transform
  carries : ∀ e, Carries e Plug rule.transform

/-- The name of a function does not end with the name of the other. -/
def Apart (function other : List Char) : Prop :=
  ¬ other.map foldCase <:+ function.map foldCase

instance (function other : List Char) : Decidable (Apart function other) :=
  inferInstanceAs (Decidable (¬ _))

theorem Apart.ne {function other : List Char} (h : Apart function other) :
    function.map foldCase ≠ other.map foldCase :=
  fun he => h (he ▸ List.suffix_refl _)

theorem Apart.ne_append {function other : List Char} (h : Apart function other) (a : List Char)
    (_ : a ≠ []) : function.map foldCase ≠ a ++ other.map foldCase :=
  fun he => h (he ▸ List.suffix_append a _)

theorem steady_around {name function first last : String} (hf : Named function.toList)
    (h : Brackets first.toList last.toList) :
    (callRule name function (around first last)).Steady where
  named := hf
  tidy := tidy_around h
  carries e := carries_around h e fun _ ht => ht.tight

theorem steady_dateCast : dateCastRule.Steady :=
  steady_around (by decide) ⟨by decide, by decide, by decide, by decide, by decide⟩

theorem steady_timestampCast : timestampCastRule.Steady :=
  steady_around (by decide) ⟨by decide, by decide, by decide, by decide, by decide⟩

theorem steady_integerCast : integerCastRule.Steady :=
  steady_around (by decide) ⟨by decide, by decide, by decide, by decide, by decide⟩

theorem steady_bigintCast : bigintCastRule.Steady :=
  steady_around (by decide) ⟨by decide, by decide, by decide, by decide, by decide⟩

theorem steady_doubleCast : doubleCastRule.Steady :=
  steady_around (by decide) ⟨by decide, by decide, by decide, by decide, by decide⟩

theorem steady_decimalCast : decimalCastRule.Steady where
  named := by decide
  tidy := tidy_decimalCast
  carries e := carries_decimalCast e fun _ ht => ht

theorem steady_varcharFormat : varcharFormatRule.Steady where
  named := by decide
  tidy := tidy_formatCall
  carries e := carries_formatCall e fun _ ht => ht

theorem steady_charCast : charCastRule.Steady :=
  steady_around (by decide) ⟨by decide, by decide, by decide, by decide, by decide⟩

/-- A rule that settles what stands in parentheses apart from what stands around them. -/
inductive Rule.Settles : Rule → Prop
  | pattern {rule : PatternRule} (h : Phrasal rule.pattern) : Settles (.pattern rule)
  | call {rule : CallRule} (h : rule.Steady) : Settles (.call rule)

theorem Rule.Settles.closed {rule : Rule} (h : rule.Settles) {text : List Char} (ht : Closed text) :
    Closed (rule.output text) := by
  cases h with
  | pattern h =>
    rw [output_pattern]
    exact (h.walk_substitute false _ text).trans ht
  | call h =>
    rw [output_call h.named]
    exact CallRule.closed_output h.tidy h.named ht

theorem Rule.Settles.item {rule : Rule} (h : rule.Settles) {text : List Char} (ht : Item text) :
    Item (rule.output text) := by
  cases h with
  | pattern h =>
    rw [output_pattern]
    exact h.item_substitute ht
  | call h =>
    rw [output_call h.named]
    exact CallRule.item_output h.tidy h.named ht

theorem Rule.Settles.solid {rule : Rule} (h : rule.Settles) {text : List Char} (ht : Closed text) :
    Solid (rule.output text) ↔ Solid text := by
  cases h with
  | pattern h =>
    rw [output_pattern]
    exact h.solid_substitute text
  | call h =>
    rw [output_call h.named]
    exact CallRule.solid_output h.tidy h.named ht

variable {rules : List Rule} {text : List Char}

theorem closed_rewriteBy (h : ∀ rule ∈ rules, rule.Settles) (ht : Closed text) :
    Closed (rewriteBy rules text) := by
  induction rules generalizing text with
  | nil => exact ht
  | cons rule rules ih =>
    obtain ⟨hrule, hrules⟩ := List.forall_mem_cons.1 h
    exact ih hrules (hrule.closed ht)

theorem item_rewriteBy (h : ∀ rule ∈ rules, rule.Settles) (ht : Item text) :
    Item (rewriteBy rules text) := by
  induction rules generalizing text with
  | nil => exact ht
  | cons rule rules ih =>
    obtain ⟨hrule, hrules⟩ := List.forall_mem_cons.1 h
    exact ih hrules (hrule.item ht)

theorem solid_rewriteBy (h : ∀ rule ∈ rules, rule.Settles) (ht : Closed text) :
    Solid (rewriteBy rules text) ↔ Solid text := by
  induction rules generalizing text with
  | nil => rfl
  | cons rule rules ih =>
    obtain ⟨hrule, hrules⟩ := List.forall_mem_cons.1 h
    exact (ih hrules (hrule.closed ht)).trans (hrule.solid ht)

/-- The name in front of a parenthesis and the white space behind the name are no part of a phrase, if
the name begins with a C and holds no U. -/
theorem Opens.bystander {function o : List Char} (hf : Named function) (ho : Opens function o)
    (hc : function.head?.map foldCase = some 'c') (hu : Avoids ['u'] function) :
    Bystander o.dropLast := by
  obtain ⟨name, blanks, rfl, hn, hb⟩ := ho
  rw [← List.append_assoc, List.dropLast_concat]
  constructor
  · cases name with
    | nil => exact absurd rfl (hf.word hn).1
    | cons c name =>
      rw [← List.head?_map, ← hn] at hc
      exact ⟨c, name ++ blanks, rfl, by simpa using hc⟩
  · refine Avoids.append (fun c hm hd => ?_) (avoids_of_all (by decide) hb)
    have hmem : foldCase c ∈ function.map foldCase := hn ▸ List.mem_map_of_mem hm
    obtain ⟨d, hd', he⟩ := List.mem_map.1 hmem
    exact hu d hd' (he ▸ hd)

theorem Opens.dropLast_append {function o : List Char} (ho : Opens function o) :
    o.dropLast ++ ['('] = o := by
  obtain ⟨name, blanks, rfl, -, -⟩ := ho
  rw [← List.append_assoc, List.dropLast_concat]

/-- A pattern leaves an opener where it is, and replaces what stands in the parentheses apart from
what stands around them. -/
theorem Phrasal.substitute_call {p : Scan (List Char)} (h : Phrasal p) {function o : List Char}
    (ho : Opens function o) (hb : Bystander o.dropLast) {front : List Char} (hfront : Unquoted front)
    (hword : front.getLast?.any isWord = false) (back : List Char) :
    ∃ front', Unquoted front' ∧ front'.getLast? = front.getLast? ∧
      ∀ arg, p.substitute (front ++ (o ++ (arg ++ ')' :: back))) =
        front' ++ (o ++ (p.substitute arg ++ ')' :: p.substitute back)) := by
  obtain ⟨front', hs, hu, hl⟩ := h.substitute_bystander hb hfront hword
  refine ⟨front', hu, hl, fun arg => ?_⟩
  have hparen : '(' ∈ marks := by decide
  have hclose : ')' ∈ marks := by decide
  have hsplit : ∀ x y : List Char, x ++ (o ++ y) = (x ++ o.dropLast) ++ '(' :: y := by
    intro x y
    conv => lhs; rw [← ho.dropLast_append]
    simp
  rw [hsplit, hsplit, h.substitute_append hparen, h.substitute_append hclose, hs]

theorem patterns_call {rules : List PatternRule} (h : ∀ rule ∈ rules, Phrasal rule.pattern)
    {function o : List Char} (ho : Opens function o) (hb : Bystander o.dropLast) {front : List Char}
    (hfront : Unquoted front) (hword : front.getLast?.any isWord = false) (back : List Char) :
    ∃ front' back', Unquoted front' ∧ front'.getLast? = front.getLast? ∧
      ∀ arg, rewriteBy (rules.map .pattern) (front ++ (o ++ (arg ++ ')' :: back))) =
        front' ++ (o ++ (rewriteBy (rules.map .pattern) arg ++ ')' :: back')) := by
  induction rules generalizing front back with
  | nil => exact ⟨front, back, hfront, rfl, fun arg => rfl⟩
  | cons rule rules ih =>
    obtain ⟨hrule, hrules⟩ := List.forall_mem_cons.1 h
    obtain ⟨front₁, hu₁, hl₁, hsub⟩ := hrule.substitute_call ho hb hfront hword back
    obtain ⟨front', back', hu, hl, hcall⟩ := ih hrules hu₁ (hl₁ ▸ hword) (rule.pattern.substitute back)
    refine ⟨front', back', hu, hl.trans hl₁, fun arg => ?_⟩
    rw [List.map_cons, rewriteBy_cons, rewriteBy_cons, Rule.output_pattern, Rule.output_pattern, hsub,
      hcall]

/-- How the text in front of a call may come to end: as before, free, or in any way where a closing
parenthesis stood. -/
def Ending.Leads (e e' : Ending) : Prop :=
  e' = e ∨ e' = .free ∨ e = .closing

theorem Ending.Leads.trans {a b c : Ending} (h : a.Leads b) (h' : b.Leads c) : a.Leads c := by
  rcases h with rfl | rfl | rfl
  · exact h'
  · rcases h' with rfl | rfl | h'
    · exact .inr (.inl rfl)
    · exact .inr (.inl rfl)
    · cases h'
  · exact .inr (.inr rfl)

theorem CallRule.Turns.leads {rule : CallRule} {e e' : Ending} (h : Turns rule e e') :
    e.Leads e' := by
  rcases h with h | h | ⟨h, -⟩
  · exact .inl h
  · exact .inr (.inl h)
  · exact .inr (.inr h)

/-- Rules of other functions leave a call where it is, with its argument as they leave it alone. -/
theorem calls_call {rules : List CallRule} {function o : List Char}
    (h : ∀ rule ∈ rules, rule.Steady ∧ Apart rule.function function) (hf : Named function)
    (ho : Opens function o) {front : List Char} (hfront : Unquoted front) (back : List Char) :
    ∃ front' back', Unquoted front' ∧ (ending front).Leads (ending front') ∧
      ∀ arg, Closed arg → rewriteBy (rules.map .call) (front ++ (o ++ (arg ++ ')' :: back))) =
        front' ++ (o ++ (rewriteBy (rules.map .call) arg ++ ')' :: back')) := by
  induction rules generalizing front back with
  | nil => exact ⟨front, back, hfront, .inl rfl, fun arg _ => rfl⟩
  | cons rule rules ih =>
    obtain ⟨⟨hrule, hapart⟩, hrules⟩ := List.forall_mem_cons.1 h
    obtain ⟨front₁, back₁, hu₁, hturns, hout⟩ := CallRule.output_other_call hrule.tidy hrule.named
      hrule.carries hf hapart.ne hapart.ne_append ho hfront back
    obtain ⟨front', back', hu, hleads, hcall⟩ := ih hrules hu₁ back₁
    refine ⟨front', back', hu, hturns.leads.trans hleads, fun arg harg => ?_⟩
    rw [List.map_cons, rewriteBy_cons, rewriteBy_cons, Rule.output_call hrule.named,
      Rule.output_call hrule.named, hout arg harg, hcall _ (CallRule.closed_output hrule.tidy hrule.named harg)]

end ReportMigration.Sql
