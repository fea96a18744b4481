import ReportMigration.Proofs.Sql.CharCall
import ReportMigration.Proofs.Sql.Replacement

/-!
# String literals beside calls

The string literals of a text as they follow each other. A call rule leaves them as they are, and the
rule that writes dates puts its format in, once for each call.
-/

namespace ReportMigration.Sql

open Text

/-- The string literals of a text, in order. One that is never closed is the last. -/
def literals : List Char → List (List Char)
  | [] => []
  | c :: rest =>
    if c = '\'' then (c :: (Literal.split rest).1) :: literals (Literal.split rest).2
    else literals rest
termination_by text => text.length
decreasing_by
  · have := Token.split_length_le rest
    simp only [List.length_cons]
    omega
  · simp

variable {s t : List Char}

@[simp] theorem literals_nil : literals [] = [] := by
  rw [literals]

theorem literals_cons {c : Char} (hc : c ≠ '\'') (text : List Char) :
    literals (c :: text) = literals text := by
  rw [literals, if_neg hc]

theorem literals_of_notMem (h : '\'' ∉ s) : literals s = [] := by
  induction s with
  | nil => exact literals_nil
  | cons c s ih =>
    obtain ⟨hc, hs⟩ : '\'' ≠ c ∧ '\'' ∉ s := by simpa using h
    rw [literals_cons (Ne.symm hc), ih hs]

/-- Texts that do not meet in two quotes have their literals one after the other. -/
theorem literals_append (hs : Unquoted s) (hseam : t.head? = some '\'' → s.getLast? ≠ some '\'') :
    literals (s ++ t) = literals s ++ literals t := by
  fun_induction literals s with
  | case1 => rfl
  | case2 rest ih =>
    have hodd := unquoted_quote.1 hs
    obtain ⟨hlast, hclosed⟩ := Literal.split_closed hodd
    have hsplit : ('\'' :: (Literal.split rest).1) ++ (Literal.split rest).2 = '\'' :: rest :=
      congrArg _ (Literal.split_append rest)
    have hend : t.head? = some '\'' → (Literal.split rest).2 ≠ [] := by
      intro ht he
      refine hseam ht ?_
      rw [← hsplit, he, List.append_nil, List.getLast?_cons, hlast]
      rfl
    have hnext : t.head? = some '\'' → (Literal.split rest).2.getLast? ≠ some '\'' := by
      intro ht he
      refine hseam ht ?_
      rw [← hsplit, List.getLast?_append, he, Option.some_or]
    rw [List.cons_append, literals, if_pos rfl, Literal.split_append_of_closed hodd hend,
      ih hclosed hnext]
    rfl
  | case3 c rest hc ih =>
    rw [List.cons_append, literals_cons hc, ih ((unquoted_cons hc).1 hs)]
    intro ht he
    refine hseam ht ?_
    rw [List.getLast?_cons, he]
    rfl

theorem literals_append_of_notMem (hs : '\'' ∉ s) (t : List Char) :
    literals (s ++ t) = literals t := by
  induction s with
  | nil => rfl
  | cons c s ih =>
    obtain ⟨hc, hs⟩ : '\'' ≠ c ∧ '\'' ∉ s := by simpa using hs
    rw [List.cons_append, literals_cons (Ne.symm hc), ih hs]

theorem literals_trim (h : Unquoted (trim s)) : literals (trim s) = literals s := by
  obtain ⟨lead, trail, hl, ht, he⟩ := exists_trim s
  have hlead : '\'' ∉ lead := fun hm => (inert_of_isBlank hl _ hm).1 rfl
  have htrail : '\'' ∉ trail := fun hm => (inert_of_isBlank ht _ hm).1 rfl
  conv => rhs; rw [he]
  rw [literals_append_of_notMem hlead, literals_append h fun hh => absurd (List.mem_of_head? hh) htrail,
    literals_of_notMem htrail, List.append_nil]

theorem literals_arguments (h : Unquoted s) :
    (Arguments.split s).flatMap literals = literals s := by
  have hpieces : ∀ (first : List Char) (others : List (List Char)), Unquoted first →
      (∀ piece ∈ others, Unquoted piece) →
      literals (first ++ others.flatMap fun piece => ',' :: piece) =
        literals first ++ others.flatMap literals := by
    intro first others hfirst hothers
    induction others generalizing first with
    | nil => simp
    | cons piece others ih =>
      obtain ⟨hpiece, hothers⟩ := List.forall_mem_cons.1 hothers
      rw [List.flatMap_cons, List.flatMap_cons, List.cons_append, literals_append hfirst (by simp),
        literals_cons (by decide), ih piece hpiece hothers]
  have hunquoted := fun arg (ha : arg ∈ Arguments.split s) => CallRule.unquoted_of_mem_split h ha
  have hpiece := fun piece (hp : piece ∈ Arguments.pieces s) =>
    Arguments.unquoted_of_mem_pieces h hp
  have htrim : (Arguments.split s).flatMap literals = (Arguments.pieces s).flatMap literals := by
    rw [Arguments.split, List.flatMap_map]
    refine congrArg List.flatten (List.map_congr_left fun piece hp => literals_trim ?_)
    exact hunquoted _ (List.mem_map_of_mem hp)
  rw [htrim]
  conv => rhs; rw [← Arguments.text_cut ⟨false, 0⟩ s]
  rw [Arguments.pieces, List.flatMap_cons]
  exact (hpieces _ _ (hpiece _ List.mem_cons_self)
    fun piece hp => hpiece piece (List.mem_cons_of_mem _ hp)).symm

/-- A transform that keeps the literals of its arguments, puts given ones behind them, and neither
begins nor ends with a quote. -/
structure Cites (block : List (List Char)) (transform : List (List Char) → Option (List Char)) :
    Prop where
  literals : ∀ {args text}, (∀ a ∈ args, Unquoted a) → transform args = some text →
    literals text = args.flatMap literals ++ block
  head : ∀ {args text}, transform args = some text → text.head? ≠ some '\''
  last : ∀ {args text}, transform args = some text → text.getLast? ≠ some '\''

/-- Text in front without quotes, and text behind that does not begin or end with one. -/
structure Margins (first last : List Char) : Prop where
  first : first ≠ [] ∧ '\'' ∉ first
  head : last.head? ≠ some '\''
  last : last ≠ [] ∧ last.getLast? ≠ some '\''

variable {first last expr : List Char}

theorem Margins.literals (h : Margins first last) (he : Unquoted expr) :
    literals (first ++ expr ++ last) = literals expr ++ literals last := by
  rw [List.append_assoc, literals_append_of_notMem h.first.2,
    literals_append he fun hl => absurd hl h.head]

theorem Margins.head_append (h : Margins first last) :
    (first ++ expr ++ last).head? ≠ some '\'' := by
  obtain ⟨hne, hq⟩ := h.first
  cases first with
  | nil => exact absurd rfl hne
  | cons c first =>
    rintro he
    exact hq (Option.some.inj he ▸ List.mem_cons_self)

theorem Margins.last_append (h : Margins first last) :
    (first ++ expr ++ last).getLast? ≠ some '\'' := by
  rw [List.getLast?_append, List.getLast?_eq_some_getLast h.last.1, Option.some_or,
    ← List.getLast?_eq_some_getLast]
  exact h.last.2

theorem cites_around {before after : String} (h : Margins before.toList after.toList) :
    Cites (literals after.toList) (around before after) where
  literals {args text} hargs ht := by
    obtain ⟨expr, rfl, -, rfl⟩ := around_eq_some.1 ht
    rw [h.literals (hargs expr List.mem_cons_self), List.flatMap_singleton]
  head {args text} ht := by
    obtain ⟨expr, rfl, -, rfl⟩ := around_eq_some.1 ht
    exact h.head_append
  last {args text} ht := by
    obtain ⟨expr, rfl, -, rfl⟩ := around_eq_some.1 ht
    exact h.last_append

private theorem margins_toChar : Margins "to_char(".toList ", 'YYYY-MM-DD')".toList :=
  ⟨by decide, by decide, by decide⟩

private theorem literals_toChar :
    literals ", 'YYYY-MM-DD')".toList = ["'YYYY-MM-DD'".toList] := by
  have hcut : ", 'YYYY-MM-DD')".toList = ", ".toList ++ '\'' :: "YYYY-MM-DD')".toList := by decide
  rw [hcut, literals_append_of_notMem (by decide), literals, if_pos rfl,
    literals_of_notMem (by decide)]
  rfl

theorem Cites.mono {block : List (List Char)}
    {transform transform' : List (List Char) → Option (List Char)} (h : Cites block transform)
    (hi : ∀ {args text}, transform' args = some text → transform args = some text) :
    Cites block transform' where
  literals hargs ht := h.literals hargs (hi ht)
  head ht := h.head (hi ht)
  last ht := h.last (hi ht)

theorem cites_charOfDate : Cites ["'YYYY-MM-DD'".toList] charOfDate := by
  have haround := cites_around margins_toChar
  rw [literals_toChar] at haround
  refine haround.mono fun ht => ?_
  obtain ⟨expr, rfl, hne, -, rfl⟩ := charOfDate_eq_some.1 ht
  exact around_eq_some.2 ⟨expr, rfl, hne, rfl⟩

private theorem margins_decimal {precision scale : List Char}
    (hp : isIntegerLiteral precision = true) (hs : isIntegerLiteral scale = true) :
    Margins "CAST(".toList (" AS numeric(".toList ++ precision ++ [','] ++ scale
      ++ "))".toList) ∧ '\'' ∉ " AS numeric(".toList ++ precision ++ [','] ++ scale
      ++ "))".toList := by
  have hnone : '\'' ∉ " AS numeric(".toList ++ precision ++ [','] ++ scale ++ "))".toList := by
    have hp' : '\'' ∉ precision := fun hm => (inert_of_isIntegerLiteral hp _ hm).1 rfl
    have hs' : '\'' ∉ scale := fun hm => (inert_of_isIntegerLiteral hs _ hm).1 rfl
    simp [hp', hs']
  exact ⟨⟨by decide, fun he => hnone (List.mem_of_head? he), by simp, fun he =>
    hnone (List.mem_of_getLast? he)⟩, hnone⟩

theorem cites_decimalCast : Cites [] decimalCast where
  literals {args text} hargs ht := by
    obtain ⟨expr, p, s, rfl, -, hp, hs, rfl⟩ := decimalCast_eq_some.1 ht
    obtain ⟨hmargins, hnone⟩ := margins_decimal hp hs
    have hp' : '\'' ∉ p := fun hm => (inert_of_isIntegerLiteral hp _ hm).1 rfl
    have hs' : '\'' ∉ s := fun hm => (inert_of_isIntegerLiteral hs _ hm).1 rfl
    rw [hmargins.literals (hargs expr (by simp)), literals_of_notMem hnone]
    simp [literals_of_notMem hp', literals_of_notMem hs']
  head {args text} ht := by
    obtain ⟨expr, p, s, rfl, -, hp, hs, rfl⟩ := decimalCast_eq_some.1 ht
    exact (margins_decimal hp hs).1.head_append
  last {args text} ht := by
    obtain ⟨expr, p, s, rfl, -, hp, hs, rfl⟩ := decimalCast_eq_some.1 ht
    exact (margins_decimal hp hs).1.last_append

private theorem margins_format (format : List Char) :
    Margins "to_char(".toList (", ".toList ++ format ++ [')']) := by
  refine ⟨by decide, ?_, by simp, ?_⟩
  · rintro ⟨⟩
  · rw [List.getLast?_concat]
    decide

theorem cites_formatCall : Cites [] formatCall where
  literals {args text} hargs ht := by
    obtain ⟨expr, format, rfl, -, -, rfl⟩ := formatCall_eq_some.1 ht
    rw [(margins_format format).literals (hargs expr (by simp)), List.append_assoc ", ".toList,
      literals_append_of_notMem (by decide), literals_append (hargs format (by simp)) (by simp),
      literals_of_notMem (s := [')']) (by decide)]
    simp
  head {args text} ht := by
    obtain ⟨expr, format, rfl, -, -, rfl⟩ := formatCall_eq_some.1 ht
    exact (margins_format format).head_append
  last {args text} ht := by
    obtain ⟨expr, format, rfl, -, -, rfl⟩ := formatCall_eq_some.1 ht
    exact (margins_format format).last_append

/-- The second list is the first with a number of copies of an element put in. -/
inductive Inserted {α : Type} (a : α) : Nat → List α → List α → Prop
  | nil : Inserted a 0 [] []
  | keep {n : Nat} {l l' : List α} (b : α) (h : Inserted a n l l') :
    Inserted a n (b :: l) (b :: l')
  | insert {n : Nat} {l l' : List α} (h : Inserted a n l l') : Inserted a (n + 1) l (a :: l')

theorem Inserted.append_left {α : Type} {a : α} {n : Nat} {l l' : List α} (h : Inserted a n l l')
    (front : List α) : Inserted a n (front ++ l) (front ++ l') := by
  induction front with
  | nil => exact h
  | cons b front ih => exact .keep b ih

theorem Inserted.refl {α : Type} (a : α) (l : List α) : Inserted a 0 l l := by
  simpa using Inserted.nil.append_left l

theorem Inserted.trans {α : Type} {a : α} {m n : Nat} {l l' l'' : List α} (h : Inserted a m l l')
    (h' : Inserted a n l' l'') : Inserted a (m + n) l l'' := by
  induction h' generalizing m l with
  | nil => simpa using h
  | keep b _ ih =>
    cases h with
    | keep _ h => exact .keep b (ih h)
    | insert h =>
      rw [Nat.add_right_comm]
      exact .insert (ih h)
  | insert _ ih => exact .insert (ih h)

namespace CallRule

variable {rule : CallRule} {block : List (List Char)} {text next : List Char}

/-- Where a call is replaced, the literals of its replacement are those between its parentheses and
those that the transform puts behind them. -/
theorem Replaces.literals (hc : Cites block rule.transform) (ht : Tidy rule.transform)
    (hf : Named rule.function) (h : rule.Replaces text next) :
    ∃ front back, Sql.literals text = front ++ back ∧
      Sql.literals next = front ++ (block ++ back) := by
  obtain @⟨front, o, inside, text, hfront, -, ho, hinside, hsome, back⟩ := h
  have hargs : ∀ arg ∈ Arguments.split inside, Unquoted arg :=
    fun arg ha => unquoted_of_mem_split hinside.unquoted ha
  have hopener : '\'' ∉ o := by
    obtain ⟨name, blanks, rfl, hname, hblanks⟩ := ho
    simp only [List.mem_append, List.mem_singleton, not_or]
    refine ⟨fun hm => ?_, fun hm => ?_, by decide⟩
    · exact absurd ((hf.word hname).2 _ hm) (by decide)
    · exact absurd (List.all_eq_true.1 hblanks _ hm) (by decide)
  have hhead := ho.head_append hf (inside ++ ')' :: back)
  have hhead' : (text ++ back).head? ≠ some '\'' := by
    rw [List.head?_append_of_ne_nil _ (ht.tight hsome).ne_nil]
    exact hc.head hsome
  refine ⟨Sql.literals front ++ Sql.literals inside, Sql.literals back, ?_, ?_⟩
  · rw [literals_append hfront fun he => absurd he hhead, literals_append_of_notMem hopener,
      literals_append hinside.unquoted (by simp), literals_cons (by decide), List.append_assoc]
  · rw [literals_append hfront fun he => absurd he hhead',
      literals_append (ht.unquoted hargs hsome) fun _ => hc.last hsome, hc.literals hargs hsome,
      literals_arguments hinside.unquoted]
    simp only [List.append_assoc]

theorem literals_output (hc : Cites [] rule.transform) (ht : Tidy rule.transform)
    (hf : Named rule.function) (text : List Char) :
    Sql.literals (rule.output text) = Sql.literals text := by
  refine (rewrites_output ht hf text).invariant (P := fun t => Sql.literals t = Sql.literals text)
    (fun hstep heq => ?_) rfl
  obtain ⟨front, back, hold, hnew⟩ := hstep.literals hc ht hf
  rw [hnew, ← heq, hold]
  rfl

theorem inserted_output {added : List Char} (hc : Cites [added] rule.transform)
    (ht : Tidy rule.transform) (hf : Named rule.function) (text : List Char) :
    Inserted added ((Reading.ofText rule.function text).replacements rule) (Sql.literals text)
      (Sql.literals (rule.output text)) := by
  have hsteps : ∀ {n : Nat} {text last : List Char}, rule.Rewrites n text last →
      Inserted added n (Sql.literals text) (Sql.literals last) := by
    intro n text last h
    induction h with
    | refl text => exact .refl added _
    | step h _ ih =>
      obtain ⟨front, back, hold, hnew⟩ := h.literals hc ht hf
      have hone : Inserted added 1 (front ++ back) (front ++ (added :: back)) :=
        (Inserted.insert (.refl added back)).append_left front
      rw [Nat.add_comm, hold]
      exact hone.trans (hnew ▸ ih)
  exact hsteps (rewrites_output ht hf text)

end CallRule

private theorem cites_otherCalls : ∀ rule ∈ standardCalls, rule.name ≠ charDateRule.name →
    Cites [] rule.transform ∧ rule.Steady := by
  intro rule hrule hname
  have hcites : ∀ {before after : String}, Margins before.toList after.toList →
      '\'' ∉ after.toList → Cites [] (around before after) := fun hm hnone =>
    literals_of_notMem hnone ▸ cites_around hm
  simp only [standardCalls, List.mem_cons, List.not_mem_nil, or_false] at hrule
  rcases hrule with rfl | rfl | rfl | rfl | rfl | rfl | rfl | rfl | rfl
  · exact ⟨hcites ⟨by decide, by decide, by decide⟩ (by decide), steady_dateCast⟩
  · exact ⟨hcites ⟨by decide, by decide, by decide⟩ (by decide), steady_timestampCast⟩
  · exact ⟨hcites ⟨by decide, by decide, by decide⟩ (by decide), steady_integerCast⟩
  · exact ⟨hcites ⟨by decide, by decide, by decide⟩ (by decide), steady_bigintCast⟩
  · exact ⟨hcites ⟨by decide, by decide, by decide⟩ (by decide), steady_doubleCast⟩
  · exact ⟨cites_decimalCast, steady_decimalCast⟩
  · exact ⟨cites_formatCall, steady_varcharFormat⟩
  · exact absurd rfl hname
  · exact ⟨hcites ⟨by decide, by decide, by decide⟩ (by decide), steady_charCast⟩

/-- The standard calls leave the literals of every text as they are and in their order, and the one
that writes dates adds its format once for each call that it replaces. -/
theorem literals_standardCalls :
    (∀ rule ∈ standardCalls, rule.name ≠ charDateRule.name → ∀ text,
      literals ((rule.apply text).getD text) = literals text) ∧
    ∀ text, Inserted "'YYYY-MM-DD'".toList
      ((Reading.ofText charDateRule.function text).replacements charDateRule) (literals text)
      (literals ((charDateRule.apply text).getD text)) := by
  refine ⟨fun rule hrule hname text => ?_, fun text => ?_⟩
  · obtain ⟨hcites, hsteady⟩ := cites_otherCalls rule hrule hname
    rw [CallRule.getD_apply hsteady.named.isWord]
    exact CallRule.literals_output hcites hsteady.tidy hsteady.named text
  · have hnamed : Named charDateRule.function := by decide
    rw [CallRule.getD_apply hnamed.isWord]
    exact CallRule.inserted_output cites_charOfDate tidy_charOfDate hnamed text

end ReportMigration.Sql
