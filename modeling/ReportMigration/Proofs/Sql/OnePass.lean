import ReportMigration.Proofs.Sql.SecondRewrite

/-!
# One pass

What a rule leaves to do where the replacement of a call is a call of another function. Every
replacement takes one call of the rule's function out of the text and brings none in, so the calls
that are left are those that the rule declined or that are never closed, and a second pass over them
replaces nothing.
-/

namespace ReportMigration.Sql

open Text

namespace CallRule

variable {rule : CallRule} {text next last : List Char}

/-- Every replacement ends with a parenthesis. -/
def Encloses (transform : List (List Char) → Option (List Char)) : Prop :=
  ∀ ⦃args text⦄, transform args = some text → text.getLast? = some ')'

theorem Replaces.calls (hf : Named rule.function) (hw : Wraps rule rule.transform)
    (he : Encloses rule.transform) (h : rule.Replaces text next) :
    calls rule.function next + 1 = calls rule.function text := by
  obtain @⟨front, o, inside, text, hfront, hbound, ho, hinside, ht, back⟩ := h
  have hword : front.getLast?.any isWord = false := by
    rcases hbound with hword | ⟨front', args, text', hsome, rfl⟩
    · exact hword
    · rw [List.getLast?_append, he hsome, Option.some_or, Option.any_some]
      decide
  obtain ⟨name, inner, rfl, hname, hapart, hinner, -, hcount⟩ :=
    hw (fun arg ha => Arguments.item_of_mem_split hinside ha) ht
  have hnext : front ++ ((name ++ ['(']) ++ (inner ++ [')']) ++ back) =
      front ++ ((name ++ ['(']) ++ (inner ++ ')' :: back)) := by simp
  rw [hnext, calls_other_call hf hname hapart hfront (opens_name name) hinner.unquoted,
    calls_own_call hf hfront hword ho hinside.unquoted, hcount, (finds_split hf hinside).2]

theorem Rewrites.calls (hf : Named rule.function) (hw : Wraps rule rule.transform)
    (he : Encloses rule.transform) {n : Nat} (h : rule.Rewrites n text last) :
    calls rule.function last + n = calls rule.function text := by
  induction h with
  | refl text => rfl
  | step hstep _ ih =>
    have hless := hstep.calls hf hw he
    omega

theorem calls_output (ht : Tidy rule.transform) (hf : Named rule.function)
    (hw : Wraps rule rule.transform) (he : Encloses rule.transform) (text : List Char) :
    calls rule.function (rule.output text) +
      (Reading.ofText rule.function text).replacements rule = calls rule.function text :=
  (rewrites_output ht hf text).calls hf hw he

theorem encloses_around {first last : String} (h : last.toList.getLast? = some ')') :
    Encloses (around first last) := by
  intro args text ht
  obtain ⟨expr, -, -, rfl⟩ := around_eq_some.1 ht
  rw [List.getLast?_append, h, Option.some_or]

end CallRule

open CallRule in
theorem encloses_wrappingCalls : ∀ rule ∈ wrappingCalls, Encloses rule.transform := by
  simp only [wrappingCalls, otherCalls, List.cons_append, List.nil_append, List.forall_mem_cons,
    List.not_mem_nil, false_imp_iff, implies_true, and_true]
  refine ⟨encloses_around (by decide), encloses_around (by decide), encloses_around (by decide),
    ?_, ?_, ?_, encloses_around (by decide)⟩
  · intro args text ht
    obtain ⟨expr, precision, scale, -, -, -, -, rfl⟩ := decimalCast_eq_some.1 ht
    rw [List.getLast?_append, List.getLast?_append]
    rfl
  · intro args text ht
    obtain ⟨expr, format, -, -, -, rfl⟩ := formatCall_eq_some.1 ht
    rw [List.getLast?_append, List.getLast?_concat]
    rfl
  · intro args text ht
    obtain ⟨expr, -, -, -, rfl⟩ := charOfDate_eq_some.1 ht
    rw [List.getLast?_append]
    rfl

/-- One pass of one of these rules settles all that the rule can settle. A second pass replaces
nothing: every closed call of the function that is left outside literals, at any depth, has arguments
that the rule declines. No call is formed on the way: those that are left, closed or not, and those
that were replaced are together as many as the text had. -/
theorem apply_again_wrappingCalls {rule : CallRule}
    (h : rule ∈ [integerCastRule, bigintCastRule, doubleCastRule, decimalCastRule,
      varcharFormatRule, charDateRule, charCastRule]) (text : List Char) :
    let settled := (rule.apply text).getD text
    rule.apply settled = none ∧
      (∀ front o inside back, settled = front ++ (o ++ (inside ++ ')' :: back)) → Unquoted front →
        front.getLast?.any isWord = false → Opens rule.function o → Closed inside →
          rule.transform (Arguments.split inside) = none) ∧
      calls rule.function settled + (Reading.ofText rule.function text).replacements rule =
        calls rule.function text := by
  have hmem : rule ∈ wrappingCalls := h
  have hstandard := mem_standardCalls_of_wrapping rule hmem
  obtain ⟨htidy, hnamed⟩ := tidy_standardCalls rule hstandard
  have hwraps : CallRule.Wraps rule rule.transform :=
    wraps_wrappingCalls hnamed (apart_newNames rule hstandard) rule hmem
  have hnone := apply_output_wrappingCalls hmem text
  rw [CallRule.getD_apply hnamed.isWord]
  refine ⟨hnone, fun front o inside back he hfront hword ho hinside => ?_,
    CallRule.calls_output htidy hnamed hwraps (encloses_wrappingCalls rule hmem) text⟩
  rw [← Option.not_isSome_iff_eq_none]
  intro haccepts
  have hfinds := (CallRule.finds_iff hnamed).2
    ⟨front, o, inside, back, he, hfront, hword, ho, hinside, haccepts⟩
  rw [CallRule.finds_eq_false.2 hnone] at hfinds
  cases hfinds

/-- Calls inside calls are gone after one pass, and the call without an argument is left. -/
theorem apply_again_wrappingCalls_nested :
    let text := "INTEGER(INTEGER(x) + INTEGER())".toList
    let settled := (integerCastRule.apply text).getD text
    settled = "CAST(CAST(x AS integer) + INTEGER() AS integer)".toList ∧
      integerCastRule.apply settled = none ∧
      calls "INTEGER".toList settled + (Reading.ofText "INTEGER".toList text).replacements
        integerCastRule = calls "INTEGER".toList text := by
  intro text settled
  have hmem : integerCastRule ∈ [integerCastRule, bigintCastRule, doubleCastRule, decimalCastRule,
      varcharFormatRule, charDateRule, charCastRule] := by simp
  obtain ⟨hnone, -, hcalls⟩ := apply_again_wrappingCalls hmem text
  exact ⟨by decide +kernel, hnone, hcalls⟩

end ReportMigration.Sql
