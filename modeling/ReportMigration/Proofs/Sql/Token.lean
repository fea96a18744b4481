import ReportMigration.Proofs.Sql.Opener
import ReportMigration.Sql.Literal

/-!
# Tokens

A text cut into string literals, openers of calls and of plain parentheses, closing parentheses
and other characters. Nothing is looked for inside a literal. `run_eq_foldl_tokens` says that a
call rule, which looks for openers everywhere and skips those that start inside a literal, settles
a text as if it read these tokens.
-/

namespace ReportMigration.Sql

open Text

/-- A piece of a text, as a reader of the calls of one function sees it. An opening parenthesis
holds the text that opens its call, if it belongs to one. -/
inductive Token where
  | literal (text : List Char)
  | opening (opener : Option (List Char))
  | closing
  | other (c : Char)
deriving DecidableEq, Repr

namespace Token

def source : Token → List Char
  | literal text => text
  | opening opener => opener.getD ['(']
  | closing => [')']
  | other c => [c]

theorem split_length_le (text : List Char) : (Literal.split text).2.length ≤ text.length := by
  have h := congrArg List.length (Literal.split_append text)
  simp only [List.length_append] at h
  omega

/-- The tokens of a text behind a given character. -/
def cut (function : List Char) (before : Option Char) (text : List Char) : List Token :=
  match text with
  | [] => []
  | c :: rest =>
    match CallRule.opener function ⟨before, c :: rest⟩ with
    | some (_, n + 1) =>
      opening (some ((c :: rest).take (n + 1))) :: cut function (some '(') (rest.drop n)
    | _ =>
      if c = '\'' then
        literal (c :: (Literal.split rest).1) :: cut function (some '\'') (Literal.split rest).2
      else if c = '(' then opening none :: cut function (some c) rest
      else if c = ')' then closing :: cut function (some c) rest
      else other c :: cut function (some c) rest
termination_by text.length
decreasing_by
  · simp only [List.length_drop, List.length_cons]
    omega
  · have := split_length_le rest
    simp only [List.length_cons]
    omega
  all_goals simp

def ofText (function : List Char) (text : List Char) : List Token :=
  cut function none text

variable {function : List Char} {before : Option Char}

@[simp] theorem cut_nil : cut function before [] = [] := by
  rw [cut]

theorem cut_opener {c : Char} {rest : List Char} {u : Unit} {n : Nat}
    (h : CallRule.opener function ⟨before, c :: rest⟩ = some (u, n + 1)) :
    cut function before (c :: rest) =
      opening (some ((c :: rest).take (n + 1))) :: cut function (some '(') (rest.drop n) := by
  rw [cut, h]

theorem cut_char {c : Char} {rest : List Char}
    (h : ∀ u n, CallRule.opener function ⟨before, c :: rest⟩ ≠ some (u, n + 1)) :
    cut function before (c :: rest) =
      if c = '\'' then
        literal (c :: (Literal.split rest).1) :: cut function (some '\'') (Literal.split rest).2
      else if c = '(' then opening none :: cut function (some c) rest
      else if c = ')' then closing :: cut function (some c) rest
      else other c :: cut function (some c) rest := by
  rw [cut]
  split
  · next u n he => exact absurd he (h u n)
  · rfl

theorem source_cut (function : List Char) (before : Option Char) (text : List Char) :
    (cut function before text).flatMap source = text := by
  fun_induction cut function before text with
  | case1 => rfl
  | case2 before c rest u n h ih => simp [source, ih]
  | case3 before rest h ih => simp [source, ih, Literal.split_append]
  | case4 before rest h hq ih => simp [source, ih]
  | case5 before rest h hq hp ih => simp [source, ih]
  | case6 before c rest h hq hp hc ih => simp [source, ih]

end Token

namespace CallRule

def State.write (s : State) (text : List Char) : State :=
  { s with written := text.reverse ++ s.written }

def readToken (rule : CallRule) (s : State) : Token → State
  | .literal text => s.write text
  | .opening opener => s.push opener
  | .closing => rule.close s
  | .other c => s.copy c

variable {rule : CallRule} {s : State}

theorem State.withQuoted_self {q : Bool} (h : s.quoted = q) : { s with quoted := q } = s := by
  subst h
  rfl

@[simp] theorem State.write_nil : s.write [] = s := rfl

theorem State.write_cons (c : Char) (text : List Char) :
    s.write (c :: text) = (s.copy c).write text := by
  simp [State.write, State.copy]

theorem State.write_append (t u : List Char) : s.write (t ++ u) = (s.write t).write u := by
  simp [State.write]

@[simp] theorem State.write_quoted (text : List Char) : (s.write text).quoted = s.quoted := rfl

@[simp] theorem State.copy_quoted (c : Char) : (s.copy c).quoted = s.quoted := rfl

/-- What a rule puts in the place of a closed parenthesis with the given text inside, if it replaces
it. -/
def replacement (rule : CallRule) (opener : Option (List Char)) (inside : List Char) :
    Option (List Char) :=
  opener.bind fun _ => rule.transform (Arguments.split inside)

/-- What becomes of a closed parenthesis with the given text inside. -/
def settled (rule : CallRule) (opener : Option (List Char)) (inside : List Char) : List Char :=
  (rule.replacement opener inside).getD (opener.getD ['('] ++ inside ++ [')'])

theorem close_nil (h : s.frames = []) : rule.close s = s.copy ')' := by
  simp only [close, h]

theorem close_cons {f : Frame} {frames : List Frame} (h : s.frames = f :: frames) :
    rule.close s =
      { s with
        frames := frames
        written := (rule.settled f.opener s.written.reverse).reverse ++ f.before
        replaced := s.replaced || (rule.replacement f.opener s.written.reverse).isSome } := by
  simp only [close, h, settled, replacement]
  cases ho : f.opener with
  | none => simp [Frame.keep, ho]
  | some text => cases rule.transform (Arguments.split s.written.reverse) <;> simp [Frame.keep, ho]

theorem close_quoted (s : State) : (rule.close s).quoted = s.quoted := by
  cases h : s.frames with
  | nil => rw [close_nil h, State.copy_quoted]
  | cons f frames => rw [close_cons h]

theorem foldl_readChar_quoted {text : List Char} (ht : '\'' ∉ text) (hs : s.quoted = true) :
    text.foldl rule.readChar s = s.write text := by
  induction text generalizing s with
  | nil => rfl
  | cons c text ih =>
    obtain ⟨hc, ht⟩ : '\'' ≠ c ∧ '\'' ∉ text := by simpa using ht
    rw [List.foldl_cons, readChar, if_neg (Ne.symm hc), if_pos hs,
      ih ht (State.copy_quoted c ▸ hs), State.write_cons]

/-- A hit of the opener inside a literal ends before the literal does. -/
private theorem split_append_of_notMem {t : List Char} (ht : '\'' ∉ t) (r : List Char) :
    Literal.split (t ++ r) = (t ++ (Literal.split r).1, (Literal.split r).2) := by
  induction t with
  | nil => rfl
  | cons c t ih =>
    obtain ⟨hc, ht⟩ : '\'' ≠ c ∧ '\'' ∉ t := by simpa using ht
    rw [List.cons_append, Literal.split, if_neg (Ne.symm hc), ih ht]
    · rfl
    · rintro rest rfl
      exact absurd rfl hc

private theorem foldl_hit_quoted (hf : rule.function.all isWord = true) {before : Option Char}
    {c : Char} {rest : List Char} {u : Unit} {n : Nat}
    (hit : opener rule.function ⟨before, c :: rest⟩ = some (u, n + 1)) (hs : s.quoted = true) :
    (Scan.segmentsFrom (opener rule.function) 0 before (c :: rest)).foldl rule.read s =
      (Scan.segmentsFrom (opener rule.function) 0 ((c :: rest).take (n + 1)).getLast?
        (rest.drop n)).foldl rule.read (s.write ((c :: rest).take (n + 1))) := by
  rw [Scan.segmentsFrom_hit hit, List.foldl_cons, read, if_pos hs,
    foldl_readChar_quoted (quote_notMem_opener hf hit) hs]

private theorem foldl_quote (hf : rule.function.all isWord = true) (before : Option Char)
    (rest : List Char) :
    (Scan.segmentsFrom (opener rule.function) 0 before ('\'' :: rest)).foldl rule.read s =
      (Scan.segmentsFrom (opener rule.function) 0 (some '\'') rest).foldl rule.read
        (rule.readChar s '\'') := by
  have hplain : ∀ u n, opener rule.function ⟨before, '\'' :: rest⟩ ≠ some (u, n + 1) :=
    fun u n he => absurd (quote_notMem_opener hf he) (by simp)
  rw [Scan.segmentsFrom_plain hplain, List.foldl_cons, read]

private theorem foldl_quotes_quoted (hf : rule.function.all isWord = true) (before : Option Char)
    (rest : List Char) (hs : s.quoted = true) :
    (Scan.segmentsFrom (opener rule.function) 0 before ('\'' :: '\'' :: rest)).foldl rule.read s =
      (Scan.segmentsFrom (opener rule.function) 0 (some '\'') rest).foldl rule.read
        (s.write ['\'', '\'']) := by
  have hw : rule.readChar (rule.readChar s '\'') '\'' = s.write ['\'', '\''] := by
    simp [readChar, State.copy, State.write, hs]
  rw [foldl_quote hf, foldl_quote hf, hw]

/-- Behind its opening quote a literal is copied, whatever openers start in it. It ends unquoted, or
with the text. -/
theorem foldl_segments_quoted (hf : rule.function.all isWord = true) (text : List Char)
    (before : Option Char) (hs : s.quoted = true) :
    ∃ q, ((Literal.split text).2 = [] ∨ q = false) ∧
      (Scan.segmentsFrom (opener rule.function) 0 before text).foldl rule.read s =
        (Scan.segmentsFrom (opener rule.function) 0 (some '\'') (Literal.split text).2).foldl
          rule.read { s.write (Literal.split text).1 with quoted := q } := by
  induction hn : text.length using Nat.strongRecOn generalizing text before s with
  | ind k ih =>
    subst hn
    cases text with
    | nil => exact ⟨true, .inl rfl, by simp [Scan.segmentsFrom, Literal.split, ← hs]⟩
    | cons c rest =>
      by_cases hit : ∃ u n, opener rule.function ⟨before, c :: rest⟩ = some (u, n + 1)
      · obtain ⟨u, n, hit⟩ := hit
        have hsplit := split_append_of_notMem (quote_notMem_opener hf hit)
          ((c :: rest).drop (n + 1))
        rw [List.take_append_drop] at hsplit
        obtain ⟨q, hq, hr⟩ := ih (rest.drop n).length (by grind) (rest.drop n)
          ((c :: rest).take (n + 1)).getLast? (s := s.write ((c :: rest).take (n + 1))) hs rfl
        refine ⟨q, by simpa [hsplit] using hq, ?_⟩
        rw [foldl_hit_quoted hf hit hs, hr, hsplit, State.write_append]
        rfl
      by_cases hc : c = '\''
      · subst hc
        cases rest with
        | nil =>
          refine ⟨false, .inl rfl, ?_⟩
          rw [foldl_quote hf]
          simp [readChar, hs, Literal.split]
          rfl
        | cons d rest =>
          by_cases hd : d = '\''
          · subst hd
            obtain ⟨q, hq, hr⟩ := ih rest.length (by simp only [List.length_cons]; omega) rest
              (some '\'') (s := s.write ['\'', '\'']) hs rfl
            refine ⟨q, by simpa [Literal.split] using hq, ?_⟩
            rw [foldl_quotes_quoted hf before rest hs, hr, Literal.split, ← State.write_append]
            rfl
          · refine ⟨false, .inr rfl, ?_⟩
            rw [foldl_quote hf, Literal.split, if_pos rfl]
            · simp [readChar, hs, State.write, State.copy]
            · rintro r - he
              exact hd (List.cons.inj he).1
      · have hplain : ∀ u n, opener rule.function ⟨before, c :: rest⟩ ≠ some (u, n + 1) :=
          fun u n he => hit ⟨u, n, he⟩
        obtain ⟨q, hq, hr⟩ := ih rest.length (by simp) rest (some c) (s := s.copy c) hs rfl
        have hsplit : Literal.split (c :: rest) =
            (c :: (Literal.split rest).1, (Literal.split rest).2) :=
          split_append_of_notMem (t := [c]) (by simpa using Ne.symm hc) rest
        refine ⟨q, by simpa [hsplit] using hq, ?_⟩
        rw [Scan.segmentsFrom_plain hplain, List.foldl_cons, read, readChar, if_neg hc, if_pos hs, hr,
          hsplit, State.write_cons]

/-- A rule that settles the segments of a text settles its tokens, except that the end of a literal
that is never closed may leave it inside. -/
theorem foldl_segments (hf : rule.function.all isWord = true) (text : List Char)
    (before : Option Char) (hs : s.quoted = false) :
    ∃ q, (Scan.segmentsFrom (opener rule.function) 0 before text).foldl rule.read s =
      { (Token.cut rule.function before text).foldl rule.readToken s with quoted := q } := by
  fun_induction Token.cut rule.function before text generalizing s with
  | case1 before => exact ⟨false, by simp [Scan.segmentsFrom, ← hs]⟩
  | case2 before c rest u n hit ih =>
    obtain ⟨q, hq⟩ := ih (s := s.push (some ((c :: rest).take (n + 1)))) hs
    refine ⟨q, ?_⟩
    rw [Scan.segmentsFrom_hit hit, List.foldl_cons, read, if_neg (by simp [hs]), getLast?_opener hit, hq]
    rfl
  | case3 before rest hit ih =>
    rw [Scan.segmentsFrom_plain fun u n he => hit u n he, List.foldl_cons, read]
    obtain ⟨q, hq, hr⟩ := foldl_segments_quoted hf rest (some '\'')
      (s := rule.readChar s '\'') (by simp [readChar, hs])
    rw [hr]
    have hw : ∀ q, { (rule.readChar s '\'').write (Literal.split rest).1 with quoted := q } =
        { s.write ('\'' :: (Literal.split rest).1) with quoted := q } := by
      simp [readChar, State.write, State.copy]
    rw [hw]
    rcases hq with hq | rfl
    · exact ⟨q, by simp [hq, Scan.segmentsFrom, readToken]⟩
    · rw [State.withQuoted_self (s := s.write _) hs]
      exact ih (s := s.write ('\'' :: (Literal.split rest).1)) hs
  | case4 before rest hq hit ih =>
    rw [Scan.segmentsFrom_plain fun u n he => hit u n he, List.foldl_cons, List.foldl_cons, read,
      readChar, if_neg hq, if_neg (by simp [hs]), if_pos rfl]
    exact ih (s := s.push none) hs
  | case5 before rest hq hp hit ih =>
    rw [Scan.segmentsFrom_plain fun u n he => hit u n he, List.foldl_cons, List.foldl_cons, read,
      readChar, if_neg hq, if_neg (by simp [hs]), if_neg hp, if_pos rfl]
    exact ih (s := rule.close s) (close_quoted s ▸ hs)
  | case6 before c rest hq hp hc hit ih =>
    rw [Scan.segmentsFrom_plain fun u n he => hit u n he, List.foldl_cons, List.foldl_cons, read,
      readChar, if_neg hq, if_neg (by simp [hs]), if_neg hp, if_neg hc]
    exact ih (s := s.copy c) hs

/-- The state after a text, but for the end of a literal that is never closed, is that after its
tokens. -/
theorem run_eq_foldl_tokens (hf : rule.function.all isWord = true) (text : List Char) :
    ∃ q, rule.run text =
      { (Token.ofText rule.function text).foldl rule.readToken ⟨[], [], false, false⟩ with
        quoted := q } :=
  foldl_segments hf text none rfl

end CallRule

end ReportMigration.Sql
