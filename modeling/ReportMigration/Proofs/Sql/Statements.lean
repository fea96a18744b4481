import ReportMigration.Proofs.Sql.Balance

/-!
# Statement by statement

The rules behind that of the isolation hint rewrite a script statement by statement: none of them
reaches across a semicolon behind a statement whose literals and parentheses are closed, and what it
leaves of such a statement is closed as well.
-/

namespace ReportMigration.Sql

open Text Scan

namespace CallRule

variable {rule : CallRule}

/-- Behind tokens as many parentheses are open as a tally of their text counts. -/
theorem length_frames_foldl (hf : Named rule.function) {ts : List Token} {before : Option Char}
    (h : Token.RegularFrom rule.function before ts) (s : State) (strays : ℕ) :
    (ts.foldl rule.readToken s).frames.length =
      ((Tally.mk false strays s.frames.length).read (ts.flatMap Token.source)).unclosed := by
  induction ts generalizing before s strays with
  | nil => rfl
  | cons t ts ih =>
    obtain ⟨ht, hts⟩ := h
    rw [List.foldl_cons, List.flatMap_cons, Tally.read_append]
    cases t with
    | literal text =>
      rw [Token.source, Tally.read_closed ht.1.closed rfl]
      exact ih hts (s.write text) strays
    | other c =>
      obtain ⟨hq, ho, hc⟩ := ht
      have hstep : (Tally.mk false strays s.frames.length).read [c] =
          ⟨false, strays, s.frames.length⟩ := by
        simp [Tally.read_cons, Tally.step, hq, ho, hc]
      rw [Token.source, hstep]
      exact ih hts (s.copy c) strays
    | opening opener =>
      have hread := Tally.read_of_walk (ht.walk_opening hf false 0) strays s.frames.length
      simp only [Nat.zero_add, Nat.add_comm 1] at hread
      rw [Token.source, hread]
      exact ih hts (s.push opener) strays
    | closing =>
      rw [readToken, Token.source, Tally.read_cons, Tally.read_nil]
      cases hframes : s.frames with
      | nil =>
        have hcopy := ih hts (s.copy ')') (strays + 1)
        rw [show (s.copy ')').frames = [] from hframes] at hcopy
        rw [close_nil hframes]
        exact hcopy
      | cons f frames =>
        rw [close_cons hframes]
        exact ih hts _ strays

/-- A call rule leaves no parenthesis open behind a text that closes all that it opens. -/
theorem frames_foldl_cut (hf : Named rule.function) {text : List Char} (hu : Unquoted text)
    (h : ((Tally.mk false 0 0).read text).unclosed = 0) :
    ((Token.cut rule.function none text).foldl rule.readToken ⟨[], [], false, false⟩).frames = [] := by
  have hlength := length_frames_foldl hf (Token.regularFrom_cut hf hu none) ⟨[], [], false, false⟩ 0
  rw [Token.source_cut] at hlength
  exact List.length_eq_zero_iff.1 (hlength.trans h)

/-- Behind such a text and a character that opens, closes and names nothing, a call rule begins
anew. -/
theorem output_append_cons (hf : Named rule.function) {d : Char} (hw : isWord d = false)
    (hb : isBlank d = false) (hd : d ≠ '\'' ∧ d ≠ '(' ∧ d ≠ ')') {x : List Char} (hu : Unquoted x)
    (hx : ((Tally.mk false 0 0).read x).unclosed = 0) (z : List Char) :
    rule.output (x ++ d :: z) = rule.output x ++ d :: rule.output z := by
  have hframes := frames_foldl_cut hf hu hx
  have hfront := text_foldl_tokens rule x
  rw [← text_foldl_tokens, Token.ofText, Token.cut_separator hf hw hb hd hu, List.foldl_append,
    List.foldl_cons]
  rw [Token.ofText] at hfront
  generalize (Token.cut rule.function none x).foldl rule.readToken ⟨[], [], false, false⟩ = s
    at hframes hfront
  have hwritten : s.written.reverse = rule.output x := by
    rw [← hfront, State.text, hframes]
    rfl
  have hback := (foldl_tokens_reading_of_frames rule (Reading.ofText rule.function z)
    (s := s.copy d) hframes).1
  rw [Reading.tokens_ofText] at hback
  refine hback.trans ?_
  rw [State.copy, List.reverse_cons, hwritten, List.append_assoc]
  rfl

end CallRule

/-- The literals of a statement are closed, and it leaves no parenthesis open. -/
def Statement (text : List Char) : Prop :=
  Unquoted text ∧ ∃ strays, Reduces text strays 0

theorem statement_iff {text : List Char} :
    Statement text ↔ Unquoted text ∧ ((Tally.mk false 0 0).read text).unclosed = 0 := by
  refine and_congr_right fun _ => ⟨fun ⟨strays, h⟩ => (Tally.reduces_iff.1 h).2, fun h => ?_⟩
  exact ⟨_, Tally.reduces_iff.2 ⟨rfl, h⟩⟩

theorem Statement.output {text : List Char} (h : Statement text) {rule : Rule}
    (hr : rule ∈ RuleSet.standard.rules) : Statement (rule.output text) := by
  obtain ⟨hu, hclosed⟩ := statement_iff.1 h
  have hread := read_standard hr text
  refine statement_iff.2 ⟨?_, by rw [hread, hclosed]⟩
  have hquotes := (sameBalance_of_read hread).quotes
  exact hquotes.trans hu

theorem Statement.output_append_cons {text : List Char} (h : Statement text) {rule : Rule}
    (hr : rule ∈ RuleSet.standard.rules.tail) (rest : List Char) :
    rule.output (text ++ ';' :: rest) = rule.output text ++ ';' :: rule.output rest := by
  obtain ⟨hu, hclosed⟩ := statement_iff.1 h
  have hsplit : RuleSet.standard.rules.tail =
      earlierPatterns.map Rule.pattern ++ standardCalls.map Rule.call := rfl
  rw [hsplit, List.mem_append] at hr
  rcases hr with hr | hr
  · obtain ⟨pattern, hpattern, rfl⟩ := List.mem_map.1 hr
    simp only [Rule.output_pattern]
    exact (phrasal_earlierPatterns pattern hpattern).substitute_append (by decide) text rest
  · obtain ⟨call, hcall, rfl⟩ := List.mem_map.1 hr
    have hnamed := (tidy_standardCalls call hcall).2
    simp only [Rule.output_call hnamed]
    exact CallRule.output_append_cons hnamed (by decide) (by decide) (by decide) hu hclosed rest

theorem Statement.rewriteBy_append_cons {text : List Char} (h : Statement text) {rules : List Rule}
    (hrules : ∀ rule ∈ rules, rule ∈ RuleSet.standard.rules.tail) (rest : List Char) :
    rewriteBy rules (text ++ ';' :: rest) = rewriteBy rules text ++ ';' :: rewriteBy rules rest := by
  induction rules generalizing text rest with
  | nil => rfl
  | cons rule rules ih =>
    obtain ⟨hrule, hrest⟩ := List.forall_mem_cons.1 hrules
    rw [rewriteBy_cons, rewriteBy_cons, rewriteBy_cons, h.output_append_cons hrule]
    exact ih (h.output (List.mem_of_mem_tail hrule)) hrest _

/-- The standard rules but for that of the isolation hint. -/
def RuleSet.withoutHint : RuleSet :=
  ⟨RuleSet.standard.rules.tail⟩

/-- Without the rule of the isolation hint, the standard rules rewrite the text in front of a
semicolon apart from the text behind it, if its quotes are even in number and it leaves no
parenthesis open. -/
theorem convert_append_semicolon {text : List Char} (hquotes : text.count '\'' % 2 = 0)
    (hclosed : ∃ strays, Reduces text strays 0) (rest : List Char) :
    (RuleSet.withoutHint.convert (text ++ ';' :: rest)).text =
      (RuleSet.withoutHint.convert text).text ++ ';' :: (RuleSet.withoutHint.convert rest).text := by
  have hstatement : Statement text := ⟨hquotes, hclosed⟩
  simp only [RuleSet.text_convert]
  exact hstatement.rewriteBy_append_cons (fun _ h => h) rest

/-- A stray parenthesis and a quoted semicolon belong to the statement in front of the semicolon. -/
theorem convert_append_semicolon_call :
    let text := "DATE(a)) ';'".toList
    text.count '\'' % 2 = 0 ∧ (∃ strays, Reduces text strays 0) ∧
      (RuleSet.withoutHint.convert (text ++ ';' :: "date(b".toList)).text =
        "(a)::date) ';';date(b".toList := by
  intro text
  have hquotes : text.count '\'' % 2 = 0 := by decide
  have hclosed : ∃ strays, Reduces text strays 0 := ⟨1, Tally.reduces_iff.2 (by decide)⟩
  refine ⟨hquotes, hclosed, ?_⟩
  rw [convert_append_semicolon hquotes hclosed]
  decide +kernel

theorem convert_script {statements : List (List Char)} (h : ∀ s ∈ statements, Statement s)
    (last : List Char) :
    (RuleSet.withoutHint.convert (statements.foldr (fun s rest => s ++ ';' :: rest) last)).text =
      statements.foldr (fun s rest => (RuleSet.withoutHint.convert s).text ++ ';' :: rest)
        (RuleSet.withoutHint.convert last).text := by
  induction statements with
  | nil => rfl
  | cons s statements ih =>
    obtain ⟨hs, hstatements⟩ := List.forall_mem_cons.1 h
    have hrest := ih hstatements
    simp only [RuleSet.text_convert] at hrest ⊢
    rw [List.foldr_cons, List.foldr_cons, ← hrest]
    exact hs.rewriteBy_append_cons (fun _ h => h) _

end ReportMigration.Sql
