import ReportMigration.Proofs.Sql.Settling

/-!
# What a rule finds behind another rule

The standard calls behind those of `DATE` and `TIMESTAMP` put calls of other functions into a text.
A rule of another function finds in what one of them leaves exactly what it found before, and the
rule itself finds nothing.
-/

namespace ReportMigration.Sql

open Text Token

namespace CallRule

variable {rule observer : CallRule} {text next : List Char}

/-- What a rule finds around a call of another function depends on what stands in front of it and
behind it, and not on the call. -/
theorem finds_other_call (hs : rule.Steady) {front : List Char} (hfront : Unquoted front)
    (back : List Char) : ∃ found, ∀ {name o inside : List Char}, Named name →
      Apart rule.function name → Opens name o → Closed inside →
        rule.finds (front ++ (o ++ (inside ++ ')' :: back))) = (rule.finds inside || found) := by
  obtain ⟨front', back', calm, -, -, hout⟩ := output_plug hs.tidy hs.named Plug (fun t ht => ht.item)
    hs.carries hfront back
  classical
  refine ⟨!decide calm, fun {name o inside} hn hapart ho hinside => ?_⟩
  have hread := reads_other_call hs.named ho hinside
  cases hfound : rule.finds inside with
  | true =>
    rw [Bool.true_or, ← Bool.not_eq_false, finds_eq_false, apply_eq_none_iff hs.named,
      cut_other_call hs.named hn hapart hfront ho hinside.unquoted, List.foldl_append,
      List.foldl_append, hread.foldl, hfound, Bool.or_true, replaced_foldl _ rfl]
    exact Bool.true_eq_false_eq_False
  | false =>
    rw [hfound] at hread
    have hwritten := output_of_finds hs.named hfound
    rw [hwritten] at hread
    have hcalm := (hout _ (o ++ (inside ++ ')' :: back)) _ (plug_call hn ho hinside)
      (ho.head_append hn _)
      (fun b x hx => opener_eq_of_opens hs.named hn ho hapart.ne_append hx _)
      (cut_beside_call hs.named hn hapart ho hinside.unquoted _ back)
      (fun s => ⟨_, hread.foldl s⟩)).2 fun s => by rw [hread.foldl, Bool.or_false]; rfl
    rw [Bool.false_or, Bool.eq_iff_iff, ← Bool.not_eq_false, finds_eq_false, hcalm]
    simp

theorem Settles.finds_eq (h : rule.Settles text next) (hf : Named rule.function)
    (hs : observer.Steady) (hapart : Apart observer.function rule.function)
    (hw : Wraps observer rule.transform) : observer.finds next = observer.finds text := by
  obtain @⟨front, o, inside, text, hfront, -, ho, hinside, -, ht, back⟩ := h
  obtain ⟨name, inner, rfl, hname, hapart', hinner, hfinds, -⟩ :=
    hw (fun arg ha => Arguments.item_of_mem_split hinside ha) ht
  obtain ⟨found, hfound⟩ := finds_other_call hs hfront back
  have hnext : front ++ ((name ++ ['(']) ++ (inner ++ [')']) ++ back) =
      front ++ ((name ++ ['(']) ++ (inner ++ ')' :: back)) := by simp
  rw [hnext, hfound hname hapart' (opens_name name) hinner, hfound hf hapart ho hinside, hfinds,
    (finds_split hs.named hinside).1]

theorem finds_output (hf : Named rule.function) (hself : Wraps rule rule.transform)
    (hs : observer.Steady) (hapart : Apart observer.function rule.function)
    (hw : Wraps observer rule.transform) (text : List Char) :
    observer.finds (rule.output text) = observer.finds text := by
  obtain ⟨hsettles, -⟩ := settles_output hf hself text
  generalize rule.output text = last at hsettles
  induction hsettles with
  | refl => rfl
  | tail _ hstep ih => exact (hstep.finds_eq hf hs hapart hw).trans ih

variable {name gap o inside x : List Char}

private theorem cut_inert (hf : Named rule.function) (h : Inert gap) (before : Option Char) :
    cut rule.function before gap = gap.map .other :=
  cut_others hf fun c hc => ⟨(h c hc).1, (h c hc).2.1, (h c hc).2.2.1⟩

theorem finds_append_inert (hf : Named rule.function) (hx : Closed x) (hgap : Inert gap) :
    Closed (x ++ gap) ∧ rule.finds (x ++ gap) = rule.finds x ∧
      calls rule.function (x ++ gap) = calls rule.function x := by
  have hcut : cut rule.function none (x ++ gap) = cut rule.function none x ++ gap.map .other := by
    rw [cut_append hf hx.unquoted, cut_inert hf hgap]
    · exact fun hq => absurd rfl (hgap _ (List.mem_of_head? hq)).1
    · exact fun b x _ => opener_append_of_notMem hf fun hm => (hgap _ hm).2.1 rfl
  have hread := (reads_closed hf hx).append (reads_others rule gap)
  rw [← hcut] at hread
  obtain ⟨hfound, hcount, -⟩ := hread.spec hf
  refine ⟨?_, by simp [hfound], hcount⟩
  rw [Closed, Place.walk_append, hx]
  exact hgap.walk _ _

theorem finds_inert (hf : Named rule.function) (hgap : Inert gap) :
    rule.finds gap = false ∧ calls rule.function gap = 0 := by
  have hread := reads_others rule gap
  rw [← cut_inert hf hgap none] at hread
  obtain ⟨hfound, hcount, -⟩ := hread.spec hf
  exact ⟨hfound, hcount⟩

/-- Behind a closed text a call of another function adds what is found inside it. -/
theorem finds_append_call (hf : Named rule.function) (hx : Closed x) (hn : Named name)
    (hapart : Apart rule.function name) (ho : Opens name o) (hinside : Closed inside) :
    Closed (x ++ (o ++ (inside ++ [')']))) ∧
      rule.finds (x ++ (o ++ (inside ++ [')']))) = (rule.finds x || rule.finds inside) ∧
        calls rule.function (x ++ (o ++ (inside ++ [')']))) =
          calls rule.function x + calls rule.function inside := by
  have hread := (reads_closed hf hx).append (reads_other_call hf ho hinside)
  have hcut := cut_other_call hf hn hapart hx.unquoted ho hinside.unquoted []
  rw [cut_nil, List.append_nil, ofText] at hcut
  rw [← hcut] at hread
  obtain ⟨hfound, hcount, -⟩ := hread.spec hf
  refine ⟨?_, hfound, hcount⟩
  rw [Closed, Place.walk_append, hx]
  exact (plug_call hn ho hinside).item.closed

theorem finds_comma_blank (hf : Named rule.function) (hx : Closed x) (hinside : Closed inside) :
    Closed (x ++ ',' :: ' ' :: inside) ∧
      rule.finds (x ++ ',' :: ' ' :: inside) = (rule.finds x || rule.finds inside) ∧
        calls rule.function (x ++ ',' :: ' ' :: inside) =
          calls rule.function x + calls rule.function inside := by
  have hblank : Closed (' ' :: inside) := hinside
  have hread := (reads_others rule [' ']).append (reads_closed hf hinside)
  have hcut : cut rule.function none ([' '] ++ inside) =
      [' '].map .other ++ cut rule.function none inside := cut_blanks hf (by decide) inside
  rw [← hcut] at hread
  obtain ⟨hfound, hcount, -⟩ := hread.spec hf
  obtain ⟨hfound', hcount'⟩ := finds_comma hf hx hblank
  refine ⟨?_, ?_, ?_⟩
  · rw [Closed, Place.walk_append, hx]
    exact hinside
  · rw [hfound', show rule.finds (' ' :: inside) = rule.finds inside from hfound.trans (Bool.false_or _)]
  · rw [hcount', show calls rule.function (' ' :: inside) = calls rule.function inside from
      hcount.trans (Nat.zero_add _)]

theorem wraps_around (hf : Named rule.function) {first last : String}
    (hfirst : first.toList = name ++ ['(']) (hlast : last.toList = gap ++ [')']) (hname : Named name)
    (hapart : Apart rule.function name) (hgap : Inert gap) : Wraps rule (around first last) := by
  intro args text hargs ht
  obtain ⟨expr, rfl, -, rfl⟩ := around_eq_some.1 ht
  obtain ⟨hclosed, hfound, hcount⟩ :=
    finds_append_inert hf (hargs expr List.mem_cons_self).closed hgap
  exact ⟨name, expr ++ gap, by simp [hfirst, hlast], hname, hapart, hclosed, by simp [hfound],
    by simp [hcount]⟩

theorem wraps_decimalCast (hf : Named rule.function) (hcast : Apart rule.function "CAST".toList)
    (hnumeric : Apart rule.function "numeric".toList) : Wraps rule decimalCast := by
  intro args text hargs ht
  obtain ⟨expr, precision, scale, rfl, -, hprecision, hscale, rfl⟩ := decimalCast_eq_some.1 ht
  have hp := inert_of_isIntegerLiteral hprecision
  have hs := inert_of_isIntegerLiteral hscale
  obtain ⟨hp₁, hp₂⟩ := finds_inert hf hp
  obtain ⟨hs₁, hs₂⟩ := finds_inert hf hs
  have hdigits : Closed (precision ++ ',' :: scale) := by
    rw [Closed, Place.walk_append, hp.walk]
    exact hs.walk _ _
  obtain ⟨hd₁, hd₂⟩ := finds_comma hf (hp.walk false _) (hs.walk false _)
  obtain ⟨hc₀, hf₀, hn₀⟩ := finds_append_inert hf (hargs expr (by simp)).closed
    (show Inert " AS ".toList by decide)
  obtain ⟨hclosed, hfound, hcount⟩ := finds_append_call hf hc₀ (by decide) hnumeric
    (opens_name "numeric".toList) hdigits
  refine ⟨"CAST".toList, _, ?_, by decide, hcast, hclosed, ?_, ?_⟩
  · have h₁ : "CAST(".toList = "CAST".toList ++ ['('] := rfl
    have h₂ : " AS numeric(".toList = " AS ".toList ++ ("numeric".toList ++ ['(']) := rfl
    have h₃ : "))".toList = [')', ')'] := rfl
    rw [h₁, h₂, h₃]
    generalize "CAST".toList = cast
    generalize " AS ".toList = as
    generalize "numeric".toList = numeric
    simp
  · rw [hfound, hf₀, hd₁]
    simp
  · rw [hcount, hn₀, hd₂]
    simp

theorem wraps_formatCall (hf : Named rule.function) (hapart : Apart rule.function "to_char".toList) :
    Wraps rule formatCall := by
  intro args text hargs ht
  obtain ⟨expr, format, rfl, -, -, rfl⟩ := formatCall_eq_some.1 ht
  obtain ⟨hclosed, hfound, hcount⟩ := finds_comma_blank hf (hargs expr (by simp)).closed
    (hargs format (by simp)).closed
  refine ⟨"to_char".toList, _, ?_, by decide, hapart, hclosed, by simp [hfound], by simp [hcount]⟩
  have h₁ : "to_char(".toList = "to_char".toList ++ ['('] := rfl
  have h₂ : ", ".toList = [',', ' '] := rfl
  rw [h₁, h₂]
  generalize "to_char".toList = name
  simp

theorem wraps_charOfDate (hf : Named rule.function) (hapart : Apart rule.function "to_char".toList) :
    Wraps rule charOfDate := by
  intro args text hargs ht
  obtain ⟨expr, rfl, -, -, rfl⟩ := charOfDate_eq_some.1 ht
  have hexpr := (hargs expr List.mem_cons_self).closed
  have hread := (reads_others rule [' ']).append (reads_literal rule "'YYYY-MM-DD'".toList)
  rw [List.map_singleton, List.singleton_append, ← cut_format hf] at hread
  obtain ⟨hquiet, hnone, -⟩ := hread.spec hf
  have hformat : Closed " 'YYYY-MM-DD'".toList := by decide
  have h₁ : "to_char(".toList = "to_char".toList ++ ['('] := rfl
  have h₂ : ", 'YYYY-MM-DD')".toList = ',' :: " 'YYYY-MM-DD'".toList ++ [')'] := rfl
  have hname : Named "to_char".toList := by decide
  rw [h₁, h₂]
  generalize "to_char".toList = name at hapart hname
  generalize " 'YYYY-MM-DD'".toList = format at hquiet hnone hformat
  obtain ⟨hfound, hcount⟩ := finds_comma hf hexpr hformat
  refine ⟨name, expr ++ ',' :: format, by simp, hname, hapart, ?_, ?_, ?_⟩
  · rw [Closed, Place.walk_append, hexpr]
    exact hformat
  · simp [hfound, hquiet]
  · simp [hcount, hnone]

end CallRule

end ReportMigration.Sql
