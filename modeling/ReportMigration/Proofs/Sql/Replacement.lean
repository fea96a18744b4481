import ReportMigration.Proofs.Sql.Carry

/-!
# One replacement after another

A call rule reads a text once, but what it leaves is what replacing one closed call after another
leaves, each where the text in front of it is settled already. A property that survives the
replacement of one call therefore survives the rule, on texts with parentheses and literals that
match nothing as well.
-/

namespace ReportMigration.Sql

open Text Token

namespace CallRule

/-- The text ends with what the rule puts in the place of a call. -/
def Behind (rule : CallRule) (front : List Char) : Prop :=
  ∃ front' args text, rule.transform args = some text ∧ front = front' ++ text

/-- A settled text ends at a word boundary like the text it was, or with a replacement. -/
def Bounds (rule : CallRule) (before : Option Char) (front : List Char) : Prop :=
  front.getLast?.any isWord = before.any isWord ∨ rule.Behind front

/-- One closed call is replaced. Its name stands at a word boundary, or directly behind another
replacement. -/
inductive Replaces (rule : CallRule) : List Char → List Char → Prop
  | call {front o inside text : List Char} (hfront : Unquoted front)
    (hbound : front.getLast?.any isWord = false ∨ rule.Behind front)
    (ho : Opens rule.function o) (hinside : Closed inside)
    (ht : rule.transform (Arguments.split inside) = some text) (back : List Char) :
    Replaces rule (front ++ (o ++ (inside ++ ')' :: back))) (front ++ (text ++ back))

/-- A number of calls is replaced, one after the other. -/
inductive Rewrites (rule : CallRule) : Nat → List Char → List Char → Prop
  | refl (text : List Char) : Rewrites rule 0 text text
  | step {n : Nat} {text next last : List Char} (h : rule.Replaces text next)
    (hs : Rewrites rule n next last) : Rewrites rule (n + 1) text last

variable {rule : CallRule} {before : Option Char} {front : List Char}

theorem Rewrites.trans {m n : Nat} {text next last : List Char} (h : rule.Rewrites m text next)
    (hs : rule.Rewrites n next last) : rule.Rewrites (m + n) text last := by
  induction h with
  | refl text => rwa [Nat.zero_add]
  | step h _ ih =>
    rw [Nat.add_right_comm]
    exact .step h (ih hs)

theorem Rewrites.invariant {P : List Char → Prop}
    (hstep : ∀ {text next}, rule.Replaces text next → P text → P next) {n : Nat}
    {text last : List Char} (h : rule.Rewrites n text last) (ht : P text) : P last := by
  induction h with
  | refl text => exact ht
  | step h _ ih => exact ih (hstep h ht)

theorem Bounds.of_last {c : Char} (h : front.getLast? = some c) : rule.Bounds (some c) front :=
  .inl (by rw [h])

theorem bounds_append {t : List Char} {c : Char} (h : t.getLast? = some c) (front : List Char) :
    rule.Bounds (some c) (front ++ t) :=
  .of_last (by rw [List.getLast?_append, h, Option.some_or])

theorem bounds_settled (opener : Option (List Char)) (inside front : List Char) :
    rule.Bounds (some ')') (front ++ rule.settled opener inside) := by
  rw [settled]
  cases hr : rule.replacement opener inside with
  | none => exact bounds_append (List.getLast?_concat ..) front
  | some text =>
    obtain ⟨o, -, ht⟩ := Option.bind_eq_some_iff.1 hr
    exact .inr ⟨front, _, text, ht, rfl⟩

theorem LooseFrom.append_cons {ts us : List Token} {u : Token}
    (h : LooseFrom rule.function before (ts ++ u :: us)) :
    RegularFrom rule.function before ts ∧
      LooseFrom rule.function ((ts.flatMap Token.source).getLast?.or before) (u :: us) := by
  induction ts generalizing before with
  | nil => exact ⟨trivial, by simpa using h⟩
  | cons t ts ih =>
    rcases h with ⟨ht, hrest⟩ | ⟨he, -⟩
    · obtain ⟨hts, hus⟩ := ih hrest
      obtain ⟨c, hc⟩ := Option.isSome_iff_exists.1 ht.getLast?_isSome
      refine ⟨⟨ht, hts⟩, ?_⟩
      rwa [List.flatMap_cons, List.getLast?_append, hc, Option.or_assoc, Option.some_or, ← hc]
    · exact absurd he (by simp)

theorem LooseFrom.of_regularFrom {ts : List Token} (h : RegularFrom rule.function before ts) :
    LooseFrom rule.function before ts := by
  induction ts generalizing before with
  | nil => trivial
  | cons t ts ih => exact .inl ⟨h.1, ih h.2⟩

variable (ht : Tidy rule.transform) (hf : Named rule.function)
include ht hf

omit ht hf in
private theorem rewrites_settled {opener : Option (List Char)} {inside : List Char}
    (ho : (Token.opening opener).Regular rule.function before) (hfront : Unquoted front)
    (hb : rule.Bounds before front) (hi : Closed inside) (back : List Char) :
    rule.Rewrites (if (rule.replacement opener inside).isSome then 1 else 0)
      (front ++ (opener.getD ['('] ++ (inside ++ ')' :: back)))
      (front ++ (rule.settled opener inside ++ back)) := by
  rw [settled]
  cases hrep : rule.replacement opener inside with
  | none => simpa using (.refl _ : rule.Rewrites 0 _ _)
  | some text =>
    obtain ⟨o, rfl, hsome⟩ := Option.bind_eq_some_iff.1 hrep
    exact .step (.call hfront (hb.imp_left fun he => he.trans ho.2) ho.1 hi hsome _) (.refl _)

theorem rewrites_forest {f : Forest} (h : LooseFrom rule.function before f.tokens)
    (hfront : Unquoted front) (hb : rule.Bounds before front) (back : List Char) :
    rule.Rewrites (f.replacements rule) (front ++ (f.source ++ back))
      (front ++ (f.evaluate rule ++ back)) := by
  induction f generalizing before front back with
  | nil => exact .refl _
  | literal text rest ih =>
    rcases h with ⟨htoken, hrest⟩ | ⟨hnil, -⟩
    · have hlast : text.getLast? = some '\'' := htoken.2
      have hsource : (Forest.literal text rest).source = text ++ rest.source := rfl
      have hr : LooseFrom rule.function (some '\'') rest.tokens := hlast ▸ hrest
      have hs := ih hr (unquoted_append hfront htoken.1.closed.unquoted)
        (bounds_append hlast front) back
      simpa [hsource, Forest.evaluate, Forest.replacements] using hs
    · cases rest with
      | nil => exact .refl _
      | literal | other | group => cases hnil
  | other c rest ih =>
    rcases h with ⟨htoken, hrest⟩ | ⟨-, text, he, -⟩
    · have hsource : (Forest.other c rest).source = c :: rest.source := rfl
      have hs := ih hrest (unquoted_append hfront ((unquoted_cons htoken.1).2 unquoted_nil))
        (bounds_append List.getLast?_singleton front) back
      simpa [hsource, Forest.evaluate, Forest.replacements] using hs
    · cases he
  | group opener inside rest ihi ihr =>
    rcases h with ⟨ho, htokens⟩ | ⟨-, text, he, -⟩
    · obtain ⟨hi, hr⟩ := LooseFrom.append_cons htokens
      have hrest : LooseFrom rule.function (some ')') rest.tokens := by
        rcases hr with ⟨-, hr⟩ | ⟨-, text, he, -⟩
        · exact hr
        · cases he
      rw [Token.source, ho.getLast?_opening] at hi
      have hopen : Unquoted (front ++ opener.getD ['(']) := unquoted_append hfront (ho.unquoted hf)
      have hclosed : Closed (inside.evaluate rule) := inside.closed_evaluate ht hf hi
      -- First the calls inside, then the call itself, then those behind it.
      have hinside := ihi (LooseFrom.of_regularFrom hi) hopen (bounds_append ho.getLast?_opening front)
        (')' :: (rest.source ++ back))
      have hcall := rewrites_settled ho hfront hb hclosed (rest.source ++ back)
      have hbehind := ihr hrest
        (unquoted_append hfront (ht.item_settled hf ho hclosed).closed.unquoted)
        (bounds_settled opener (inside.evaluate rule) front) back
      rw [Forest.source_group, Forest.evaluate, Forest.replacements,
        Nat.add_right_comm]
      simp only [List.append_assoc, List.cons_append, List.nil_append] at hinside hbehind ⊢
      exact (hinside.trans hcall).trans hbehind
    · cases he

private theorem rewrites_unclosed {f : Forest} {unclosed : List (Option (List Char) × Forest)}
    (h : LooseFrom rule.function before
      (f.tokens ++ unclosed.flatMap fun (opener, g) => .opening opener :: g.tokens))
    (hfront : Unquoted front) (hb : rule.Bounds before front) :
    rule.Rewrites (f.replacements rule + (unclosed.map fun (_, g) => g.replacements rule).sum)
      (front ++ (f.tokens ++ unclosed.flatMap fun (opener, g) =>
        .opening opener :: g.tokens).flatMap Token.source)
      (front ++ (f.evaluate rule ++ unclosed.flatMap fun (opener, g) =>
        opener.getD ['('] ++ g.evaluate rule)) := by
  induction unclosed generalizing f before front with
  | nil =>
    rw [List.flatMap_nil, List.append_nil] at h
    simpa [Forest.source] using rewrites_forest ht hf h hfront hb []
  | cons u unclosed ih =>
    obtain ⟨opener, g⟩ := u
    simp only [List.flatMap_cons, List.cons_append] at h
    obtain ⟨hregular, hrest⟩ := LooseFrom.append_cons h
    rcases hrest with ⟨ho, hrest⟩ | ⟨-, text, he, -⟩
    · rw [Token.source, ho.getLast?_opening] at hrest
      have hsettled : Unquoted (front ++ f.evaluate rule) :=
        unquoted_append hfront (f.closed_evaluate ht hf hregular).unquoted
      have hg := ih hrest (unquoted_append hsettled (ho.unquoted hf))
        (bounds_append ho.getLast?_opening (front ++ f.evaluate rule))
      have hs := rewrites_forest ht hf (LooseFrom.of_regularFrom hregular) hfront hb
        (opener.getD ['('] ++ (g.tokens ++ unclosed.flatMap fun (opener, g) =>
          .opening opener :: g.tokens).flatMap Token.source)
      simp only [Forest.source, Token.source, List.flatMap_cons, List.flatMap_append,
        List.append_assoc, List.map_cons, List.sum_cons, List.cons_append] at hs hg ⊢
      exact hs.trans hg
    · cases he

private theorem rewrites_reading {r : Reading} (h : LooseFrom rule.function before r.tokens)
    (hfront : Unquoted front) (hb : rule.Bounds before front) :
    rule.Rewrites (r.replacements rule) (front ++ r.source) (front ++ r.evaluate rule) := by
  obtain ⟨strays, middle, unclosed⟩ := r
  induction strays generalizing before front with
  | nil =>
    have htokens : LooseFrom rule.function before (middle.tokens ++ unclosed.flatMap
        fun (opener, g) => .opening opener :: g.tokens) := h
    have hs := rewrites_unclosed ht hf htokens hfront hb
    simpa [Reading.replacements, Reading.source, Reading.tokens, Reading.evaluate] using hs
  | cons f strays ih =>
    rw [Reading.tokens_stray] at h
    obtain ⟨hregular, hrest⟩ := LooseFrom.append_cons h
    rcases hrest with ⟨-, hrest⟩ | ⟨-, text, he, -⟩
    · have hsettled : Unquoted (front ++ f.evaluate rule ++ [')']) :=
        unquoted_append (unquoted_append hfront (f.closed_evaluate ht hf hregular).unquoted) rfl
      have hr := ih hsettled (bounds_append List.getLast?_singleton _) hrest
      have hs := rewrites_forest ht hf (LooseFrom.of_regularFrom hregular) hfront hb
        (')' :: (Reading.mk strays middle unclosed).source)
      rw [Reading.source_stray, Reading.evaluate_stray, Reading.replacements_stray]
      simp only [List.append_assoc, List.cons_append, List.nil_append] at hs hr ⊢
      exact hs.trans hr
    · cases he

/-- What a rule leaves of a text is what one replacement after another leaves, as many as it makes. -/
theorem rewrites_output (text : List Char) :
    rule.Rewrites ((Reading.ofText rule.function text).replacements rule) text
      (rule.output text) := by
  have hloose : LooseFrom rule.function none (Reading.ofText rule.function text).tokens := by
    rw [Reading.tokens_ofText]
    exact looseFrom_cut hf text none
  have hs := rewrites_reading ht hf hloose unquoted_nil (.inl rfl)
  rwa [List.nil_append, List.nil_append, Reading.source_ofText] at hs

end CallRule

end ReportMigration.Sql
