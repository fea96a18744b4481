import ReportMigration.Proofs.Sql.OnePass
import ReportMigration.Proofs.Sql.Positions.Commas
import ReportMigration.Proofs.Sql.Quotation

/-!
# Calls with a format

When a call of `VARCHAR_FORMAT` becomes one of `to_char`. The rule takes as a literal what begins with
a quote and ends with one. That is one literal, or an expression with a literal at its start and
another one at its end, and no other argument of a closed call.
-/

namespace ReportMigration.Sql

open Text

variable {text rest : List Char}

/-- One string literal: a quote at the start opens it, and it is closed at the end of the text. -/
def IsLiteral (text : List Char) : Prop :=
  text.head? = some '\'' ∧ Literal.endFrom text 0 = byteLength text ∧ Unquoted text

instance (text : List Char) : Decidable (IsLiteral text) :=
  inferInstanceAs (Decidable (_ ∧ _ ∧ _))

namespace Literal

theorem endFrom_quote (rest : List Char) :
    endFrom ('\'' :: rest) 0 = byteLength ('\'' :: (split rest).1) :=
  (Positions.skipLiteral_eq_endFrom [] rest).symm.trans (Positions.skipLiteral_eq [] rest)

theorem split_split (rest : List Char) : split (split rest).1 = ((split rest).1, []) := by
  fun_induction split rest with
  | case1 => rfl
  | case2 rest ih => rw [split, ih]
  | case3 rest hne => rfl
  | case4 c rest hne hc ih =>
    rw [split, if_neg hc, ih]
    rintro tail he -
    exact hc he

end Literal

theorem isLiteral_quote_iff :
    IsLiteral ('\'' :: rest) ↔ (Literal.split rest).2 = [] ∧ Unquoted ('\'' :: rest) := by
  have hlength := congrArg byteLength (Literal.split_append rest)
  rw [byteLength_append] at hlength
  have hend : Literal.endFrom ('\'' :: rest) 0 = byteLength ('\'' :: rest) ↔
      (Literal.split rest).2 = [] := by
    rw [Literal.endFrom_quote, byteLength_cons, byteLength_cons]
    constructor
    · intro he
      by_contra hne
      have hpos := byteLength_pos hne
      omega
    · intro he
      rw [he, byteLength_nil] at hlength
      omega
  rw [IsLiteral, hend]
  exact and_iff_right rfl

/-- A quote at the start of a text that ends outside literals opens a literal, and what is behind it
ends outside literals. -/
theorem isLiteral_split (h : Unquoted ('\'' :: rest)) :
    IsLiteral ('\'' :: (Literal.split rest).1) ∧ Unquoted (Literal.split rest).2 := by
  have hodd := unquoted_quote.1 h
  obtain ⟨-, hbehind⟩ := Literal.split_closed hodd
  have hcount := congrArg (List.count '\'') (Literal.split_append rest)
  rw [List.count_append] at hcount
  refine ⟨isLiteral_quote_iff.2 ⟨by rw [Literal.split_split], unquoted_quote.2 ?_⟩, hbehind⟩
  unfold Unquoted at hbehind
  omega

theorem IsLiteral.exists_cons (h : IsLiteral text) :
    ∃ rest, text = '\'' :: rest ∧ Literal.split rest = (rest, []) ∧ rest.getLast? = some '\'' := by
  cases text with
  | nil => cases h.1
  | cons c rest =>
    obtain rfl : c = '\'' := Option.some.inj h.1
    obtain ⟨hnil, hclosed⟩ := isLiteral_quote_iff.1 h
    obtain ⟨hlast, -⟩ := Literal.split_closed (unquoted_quote.1 hclosed)
    have hall := Literal.split_append rest
    rw [hnil, List.append_nil] at hall
    rw [hall] at hlast
    exact ⟨rest, rfl, Prod.ext hall hnil, hlast⟩

theorem IsLiteral.getLast? (h : IsLiteral text) : text.getLast? = some '\'' := by
  obtain ⟨rest, rfl, -, hlast⟩ := h.exists_cons
  rw [List.getLast?_cons, hlast]
  rfl

theorem exists_isLiteral_of_getLast? (h : Unquoted text) (hlast : text.getLast? = some '\'') :
    ∃ front last, text = front ++ last ∧ IsLiteral last := by
  -- From one literal to the next, the last one is the one with nothing behind it.
  fun_induction literals text with
  | case1 => cases hlast
  | case2 rest ih =>
    obtain ⟨hliteral, hbehind⟩ := isLiteral_split h
    have hall : '\'' :: (Literal.split rest).1 ++ (Literal.split rest).2 = '\'' :: rest :=
      congrArg _ (Literal.split_append rest)
    by_cases hnil : (Literal.split rest).2 = []
    · rw [hnil, List.append_nil] at hall
      exact ⟨[], _, rfl, hall ▸ hliteral⟩
    · rw [← hall, List.getLast?_append, List.getLast?_eq_some_getLast hnil, Option.some_or,
        ← List.getLast?_eq_some_getLast hnil] at hlast
      obtain ⟨front, last, he, hl⟩ := ih hbehind hlast
      exact ⟨'\'' :: (Literal.split rest).1 ++ front, last, by rw [List.append_assoc, ← he, hall], hl⟩
  | case3 c rest hc ih =>
    have hne : rest ≠ [] := by
      rintro rfl
      exact hc (Option.some.inj hlast)
    rw [List.getLast?_cons, List.getLast?_eq_some_getLast hne, Option.getD_some,
      ← List.getLast?_eq_some_getLast hne] at hlast
    obtain ⟨front, last, he, hl⟩ := ih ((unquoted_cons hc).1 h) hlast
    exact ⟨c :: front, last, by rw [he, List.cons_append], hl⟩

theorem isStringLiteral_iff_ends (h : Unquoted text) :
    isStringLiteral text = true ↔ text.head? = some '\'' ∧ text.getLast? = some '\'' := by
  simp only [isStringLiteral, Bool.and_eq_true, decide_eq_true_eq, beq_iff_eq, and_assoc]
  refine and_iff_right_of_imp fun ⟨hhead, _⟩ => ?_
  by_contra hshort
  match text, hhead with
  | [c], hhead =>
    obtain rfl : c = '\'' := Option.some.inj hhead
    exact absurd h (by decide)
  | _ :: _ :: _, _ => exact hshort (by simp)

/-- What begins with a quote and ends with one is one literal, or it begins with a literal and ends
with another one behind it. -/
theorem isStringLiteral_iff (h : Unquoted text) : isStringLiteral text = true ↔
    IsLiteral text ∨ ∃ first middle last, text = first ++ (middle ++ last) ∧
      IsLiteral first ∧ IsLiteral last ∧ Literal.endFrom text 0 = byteLength first := by
  rw [isStringLiteral_iff_ends h]
  constructor
  · rintro ⟨hhead, hlast⟩
    cases text with
    | nil => cases hhead
    | cons c rest =>
      obtain rfl : c = '\'' := Option.some.inj hhead
      obtain ⟨hfirst, hbehind⟩ := isLiteral_split h
      have hall : '\'' :: rest = '\'' :: (Literal.split rest).1 ++ (Literal.split rest).2 :=
        congrArg _ (Literal.split_append rest).symm
      by_cases hnil : (Literal.split rest).2 = []
      · exact .inl (isLiteral_quote_iff.2 ⟨hnil, h⟩)
      · rw [hall, List.getLast?_append, List.getLast?_eq_some_getLast hnil, Option.some_or,
          ← List.getLast?_eq_some_getLast hnil] at hlast
        obtain ⟨middle, last, he, hl⟩ := exists_isLiteral_of_getLast? hbehind hlast
        exact .inr ⟨_, middle, last, he ▸ hall, hfirst, hl, Literal.endFrom_quote rest⟩
  · rintro (hliteral | ⟨first, middle, last, rfl, hfirst, hlast, -⟩)
    · exact ⟨hliteral.1, hliteral.getLast?⟩
    · rw [List.head?_append, hfirst.1, List.getLast?_append, List.getLast?_append, hlast.getLast?]
      exact ⟨rfl, rfl⟩

namespace CallRule

variable {rule : CallRule} {o arg : List Char}

theorem output_of_isLiteral (hf : Named rule.function) (h : IsLiteral text) :
    rule.output text = text := by
  obtain ⟨rest, rfl, hsplit, -⟩ := h.exists_cons
  have hread := reads_literal rule ('\'' :: rest)
  have hcut : Token.cut rule.function none ('\'' :: rest) = [.literal ('\'' :: rest)] := by
    rw [Token.cut_char_of_isWord hf (by decide), if_pos rfl, hsplit, Token.cut_nil]
  rw [← hcut] at hread
  exact (hread.spec hf).2.2

/-- Where a quote begins or ends an argument, it begins or ends what a rule leaves of it. -/
theorem isStringLiteral_output {block : List (List Char)} (ht : Tidy rule.transform)
    (hc : Cites block rule.transform) (hf : Named rule.function) (h : Closed text) :
    isStringLiteral (rule.output text) = isStringLiteral text := by
  have hkind : ∀ c, isWord c = true ∨ c = '(' ∨ c = ')' → (c == '\'') = false := by
    rintro c (hword | rfl | rfl)
    · rw [beq_eq_false_iff_ne]
      rintro rfl
      exact absurd hword (by decide)
    · decide
    · decide
  have hends : ∀ {args text}, rule.transform args = some text →
      text.head?.map (· == '\'') = some false ∧ text.getLast?.map (· == '\'') = some false := by
    intro args text he
    obtain ⟨hhead, hlast⟩ := tight_iff.1 (ht.tight he)
    obtain ⟨c, hc', -⟩ := Option.map_eq_some_iff.1 hhead
    obtain ⟨d, hd, -⟩ := Option.map_eq_some_iff.1 hlast
    have hc₁ : c ≠ '\'' := fun hq => hc.head he (hc'.trans (congrArg some hq))
    have hd₁ : d ≠ '\'' := fun hq => hc.last he (hd.trans (congrArg some hq))
    simpa [hc', hd] using ⟨hc₁, hd₁⟩
  obtain ⟨hhead, hlast⟩ := ends_output hf hkind hends h
  have hquote : ∀ c? : Option Char, c? = some '\'' ↔ c?.map (· == '\'') = some true := by
    rintro (_ | c) <;> simp
  rw [Bool.eq_iff_iff, isStringLiteral_iff_ends h.unquoted,
    isStringLiteral_iff_ends (closed_output ht hf h).unquoted, hquote, hquote, hhead, hlast,
    ← hquote, ← hquote]

theorem output_eq_nil_iff (ht : Tidy rule.transform) (hf : Named rule.function) (h : Closed text) :
    rule.output text = [] ↔ text = [] := by
  obtain ⟨hhead, -⟩ := ends_output_blank ht hf h
  rw [← List.head?_eq_none_iff, ← Option.map_eq_none_iff, hhead, Option.map_eq_none_iff,
    List.head?_eq_none_iff]

theorem plug_settled {block : List (List Char)} (ht : Tidy rule.transform)
    (hc : Cites block rule.transform) (he : Encloses rule.transform) (hf : Named rule.function)
    (ho : Opens rule.function o) (h : Closed arg) : Plug (rule.settled (some o) arg) := by
  rw [settled, replacement, Option.bind_some]
  cases hsome : rule.transform (Arguments.split arg) with
  | none => simpa using plug_call hf ho h
  | some text =>
    have hargs : ∀ text ∈ Arguments.split arg, Item text :=
      fun _ ha => Arguments.item_of_mem_split h ha
    exact ⟨ht.item hargs hsome, ht.tight hsome, hc.head hsome, he hsome⟩

end CallRule

/-- The two arguments of a call that becomes one of `to_char`: an expression that is not empty, and a
format that begins with a quote and ends with one. -/
structure Formats (arg expr format : List Char) : Prop where
  split : Arguments.split arg = [expr, format]
  expr : expr ≠ []
  format : isStringLiteral format = true

section

variable {o arg expr format : List Char}

private theorem tidy_varcharFormat : Tidy varcharFormatRule.transform :=
  steady_varcharFormat.tidy

private theorem named_varcharFormat : Named varcharFormatRule.function :=
  steady_varcharFormat.named

private theorem cites_varcharFormat : Cites [] varcharFormatRule.transform :=
  cites_formatCall

private theorem accepts_output_iff (h : Closed expr) (h' : Closed format) :
    varcharFormatRule.output expr ≠ [] ∧ isStringLiteral (varcharFormatRule.output format) = true ↔
      expr ≠ [] ∧ isStringLiteral format = true := by
  rw [Ne, CallRule.output_eq_nil_iff tidy_varcharFormat named_varcharFormat h,
    CallRule.isStringLiteral_output tidy_varcharFormat cites_varcharFormat named_varcharFormat h']

private theorem settled_varcharFormat (harg : Closed arg) :
    varcharFormatRule.settled (some o) (varcharFormatRule.output arg) =
      (formatCall ((Arguments.split arg).map varcharFormatRule.output)).getD
        (o ++ (varcharFormatRule.output arg ++ [')'])) := by
  rw [CallRule.settled, CallRule.replacement, Option.bind_some,
    CallRule.split_output tidy_varcharFormat named_varcharFormat harg, List.append_assoc]
  rfl

private theorem closed_arguments (harg : Closed arg) : ∀ text ∈ Arguments.split arg, Closed text :=
  fun _ hm => (Arguments.item_of_mem_split harg hm).closed

theorem settled_of_formats (harg : Closed arg) (h : Formats arg expr format) :
    varcharFormatRule.settled (some o) (varcharFormatRule.output arg) =
      "to_char(".toList ++ varcharFormatRule.output expr ++
        (", ".toList ++ varcharFormatRule.output format ++ [')']) := by
  obtain ⟨hexpr, hformat⟩ : Closed expr ∧ Closed format := by
    simpa [h.split] using closed_arguments harg
  obtain ⟨hne, hliteral⟩ := (accepts_output_iff hexpr hformat).2 ⟨h.expr, h.format⟩
  have hsome := formatCall_eq_some.2 ⟨_, _, rfl, hne, hliteral, rfl⟩
  rw [settled_varcharFormat harg, h.split, List.map_cons, List.map_cons, List.map_nil, hsome,
    Option.getD_some]

theorem settled_of_not_formats (harg : Closed arg) (h : ∀ expr format, ¬ Formats arg expr format) :
    varcharFormatRule.settled (some o) (varcharFormatRule.output arg) =
      o ++ (varcharFormatRule.output arg ++ [')']) := by
  have hnone : formatCall ((Arguments.split arg).map varcharFormatRule.output) = none := by
    rw [Option.eq_none_iff_forall_ne_some]
    intro text hsome
    obtain ⟨_, _, hmap, hne, hliteral, -⟩ := formatCall_eq_some.1 hsome
    obtain ⟨expr, others, hsplit, rfl, hothers⟩ := List.map_eq_cons_iff.1 hmap
    obtain ⟨format, rfl, rfl⟩ := List.map_eq_singleton_iff.1 hothers
    obtain ⟨hexpr, hformat⟩ : Closed expr ∧ Closed format := by
      simpa [hsplit] using closed_arguments harg
    obtain ⟨hne, hliteral⟩ := (accepts_output_iff hexpr hformat).1 ⟨hne, hliteral⟩
    exact h expr format ⟨hsplit, hne, hliteral⟩
  rw [settled_varcharFormat harg, hnone, Option.getD_none]

end

/-- What a closed call of `VARCHAR_FORMAT` outside literals becomes, at any depth and between texts
that do not depend on its arguments. It becomes a call of `to_char` exactly if it has two arguments, the
first of them is not empty, and the second begins with a quote and ends with one. A format of one
literal does, and is written as it is; any other format that does begins with a literal and ends with
another one. In all other cases the call stays, with the calls inside it rewritten. -/
theorem output_varcharFormat_call {pre o : List Char} (hpre : Unquoted pre)
    (hword : pre.getLast?.any isWord = false) (ho : Opens "VARCHAR_FORMAT".toList o)
    (post : List Char) :
    let rewritten := (Rule.call varcharFormatRule).output
    ∃ front back, ∀ arg, Closed arg →
      (∀ expr format, Formats arg expr format →
        rewritten (pre ++ (o ++ (arg ++ ')' :: post))) =
          front ++ ("to_char(".toList ++ rewritten expr ++ (", ".toList ++ rewritten format ++ [')'])
            ++ back)) ∧
      ((∀ expr format, ¬ Formats arg expr format) →
        rewritten (pre ++ (o ++ (arg ++ ')' :: post))) =
          front ++ (o ++ (rewritten arg ++ [')']) ++ back)) ∧
      ∀ format ∈ Arguments.split arg,
        (IsLiteral format → isStringLiteral format = true ∧ rewritten format = format) ∧
        (isStringLiteral format = true → ¬ IsLiteral format → ∃ first middle last,
          format = first ++ (middle ++ last) ∧ IsLiteral first ∧ IsLiteral last ∧
            Literal.endFrom format 0 = byteLength first) := by
  simp only [Rule.output_call named_varcharFormat]
  have hencloses : CallRule.Encloses varcharFormatRule.transform :=
    encloses_wrappingCalls _ (by simp [wrappingCalls, otherCalls])
  obtain ⟨front, back, -, -, hout⟩ := CallRule.output_own_call tidy_varcharFormat named_varcharFormat
    Plug (fun _ hp => hp.item) steady_varcharFormat.carries ho hpre (ending_ne_word_iff.2 hword) post
  refine ⟨front, back, fun arg harg => ?_⟩
  have hcall := hout arg harg (CallRule.plug_settled tidy_varcharFormat cites_varcharFormat hencloses
    named_varcharFormat ho (CallRule.closed_output tidy_varcharFormat named_varcharFormat harg))
  refine ⟨fun expr format h => ?_, fun h => ?_, fun format hm => ?_⟩
  · rw [hcall, settled_of_formats harg h]
  · rw [hcall, settled_of_not_formats harg h]
  · have hiff := isStringLiteral_iff (closed_arguments harg format hm).unquoted
    exact ⟨fun hl => ⟨hiff.2 (.inl hl), CallRule.output_of_isLiteral named_varcharFormat hl⟩,
      fun hquoted hnot => (hiff.1 hquoted).resolve_left hnot⟩

/-- A format of one literal, and a call in the expression. -/
theorem output_varcharFormat_call_literal : ∃ front back,
    (Rule.call varcharFormatRule).output "SELECT varchar_format (MAX(ts), 'YYYY-MM')".toList =
      front ++ ("to_char(MAX(ts), 'YYYY-MM')".toList ++ back) := by
  have ho : Opens "VARCHAR_FORMAT".toList "varchar_format (".toList :=
    ⟨"varchar_format".toList, [' '], by decide⟩
  obtain ⟨front, back, hcall⟩ :=
    output_varcharFormat_call (show Unquoted "SELECT ".toList by decide) (by decide) ho []
  have hsplit : Arguments.split "MAX(ts), 'YYYY-MM'".toList =
      ["MAX(ts)".toList, "'YYYY-MM'".toList] := by decide
  obtain ⟨hreplaced, -, hformat⟩ := hcall "MAX(ts), 'YYYY-MM'".toList (by decide)
  have hm : "'YYYY-MM'".toList ∈ Arguments.split "MAX(ts), 'YYYY-MM'".toList := by
    rw [hsplit]
    exact List.mem_cons_of_mem _ List.mem_cons_self
  obtain ⟨hliteral, hsame⟩ := (hformat "'YYYY-MM'".toList hm).1 (by decide)
  have hexpr : (Rule.call varcharFormatRule).output "MAX(ts)".toList = "MAX(ts)".toList := by
    decide +kernel
  have h := hreplaced _ _ ⟨hsplit, by decide, hliteral⟩
  rw [hsame, hexpr] at h
  exact ⟨front, back, h⟩

/-- A format between two quotes is no literal where it is put together of two. -/
theorem apply_varcharFormat_concatenation :
    Arguments.split "ts, 'YYYY' || '-MM'".toList = ["ts".toList, "'YYYY' || '-MM'".toList] ∧
      ¬ IsLiteral "'YYYY' || '-MM'".toList ∧
      varcharFormatRule.apply "VARCHAR_FORMAT(ts, 'YYYY' || '-MM')".toList =
        some "to_char(ts, 'YYYY' || '-MM')".toList := by
  decide +kernel

end ReportMigration.Sql
