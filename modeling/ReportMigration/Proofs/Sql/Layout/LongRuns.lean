import ReportMigration.Proofs.Sql.Layout.LineBreaks
import ReportMigration.Proofs.Sql.Layout.NewSpace
import ReportMigration.Proofs.Sql.Layout.Stable

/-!
# Runs of line breaks that are left

Cutting down a run of line breaks leaves two of them. A carriage return that ended no line ends one when
the run directly behind it is cut down, and then a line break in front of it makes a run of three. This
is the only way to have such a run in a statement that is laid out.
-/

namespace ReportMigration.Sql.Layout

open Text Scan

variable {c : Char} {g run text w x : List Char}

/-- Behind a line break, with spaces and tabs between them or none, a carriage return stands in front of
three line breaks and is not one of them. -/
def Stray (text : List Char) : Prop :=
  ∃ pad run, pad.all isPad = true ∧ IsLongRun run ∧ run.head? ≠ some '\n' ∧
    '\n' :: (pad ++ '\r' :: run) <:+: text

/-- A carriage return, behind spaces and tabs or none, that comes to end a line. -/
def Welded (text : List Char) : Prop :=
  ∃ pad rest, text = pad ++ '\r' :: rest ∧ pad.all isPad = true ∧ rest.head? ≠ some '\n' ∧
    3 ≤ breaksAhead rest

theorem stray_iff : Stray text ↔ ∃ front rest, text = front ++ '\n' :: rest ∧ Welded rest := by
  constructor
  · rintro ⟨pad, run, hp, hrun, hhead, front, back, rfl⟩
    refine ⟨front, pad ++ '\r' :: (run ++ back), by simp, pad, run ++ back, rfl, hp, ?_,
      hrun.breaksAhead_append back⟩
    obtain ⟨x, y, z, rfl, ⟨blanks, -, hx⟩, -, -⟩ := hrun
    have hne : x ++ (y ++ z) ≠ [] := by rcases hx with rfl | rfl <;> simp
    rwa [List.head?_append_of_ne_nil _ hne]
  · rintro ⟨front, rest, rfl, pad, rest, rfl, hp, hhead, hcount⟩
    obtain ⟨run, back, hrun, rfl⟩ := exists_isLongRun hcount
    refine ⟨pad, run, hp, hrun, fun he => hhead ?_, front, back, by simp⟩
    rw [List.head?_append, he]
    rfl

theorem Stray.append (h : Stray text) (front : List Char) : Stray (front ++ text) := by
  obtain ⟨pad, run, hp, hrun, hhead, hin⟩ := h
  exact ⟨pad, run, hp, hrun, hhead, hin.trans List.infix_append_right⟩

theorem Welded.breaksAhead_eq (h : Welded text) : breaksAhead text = 0 := by
  obtain ⟨pad, rest, rfl, hp, hhead, -⟩ := h
  rw [breaksAhead_blanks hp, breaksAhead_return, if_neg hhead]

theorem Stray.of_run (h : 0 < breaksAhead text)
    (hw : Welded (behindBreaks text) ∨ Stray (behindBreaks text)) : Stray text := by
  obtain ⟨front, hfront⟩ := exists_feed h
  rcases hw with hw | hw
  · exact stray_iff.2 ⟨front, _, hfront, hw⟩
  · rw [hfront, ← List.singleton_append, ← List.append_assoc]
    exact hw.append _

theorem head?_blankRuns (text : List Char) :
    (blankRun.substitute text).head? = some '\n' ↔ text.head? = some '\n' ∨ 3 ≤ breaksAhead text := by
  by_cases hrun : 3 ≤ breaksAhead text
  · simp [blankRuns_run hrun, hrun]
  · cases text with
    | nil => exact ⟨.inl, fun h => h.resolve_right hrun⟩
    | cons c text => simp [blankRuns_plain (not_le.1 hrun), hrun]

/-- A carriage return stands in front of line breaks that are cut down because it did so before, or
because those behind it are a run. -/
theorem welded_or_stray_return (ih : min (breaksAhead text) 2 < breaksAhead (blankRun.substitute text) →
      (Welded text ∧ breaksAhead (blankRun.substitute text) = 2) ∨ Stray text)
    (h : min (breaksAhead ('\r' :: text)) 2 < breaksAhead ('\r' :: blankRun.substitute text)) :
    (Welded ('\r' :: text) ∧ breaksAhead ('\r' :: blankRun.substitute text) = 2) ∨
      Stray ('\r' :: text) := by
  have hkeep : (blankRun.substitute text).head? = some '\n' := by
    by_contra hne
    rw [breaksAhead_return (blankRun.substitute text), if_neg hne] at h
    exact absurd h (Nat.not_lt_zero _)
  rw [breaksAhead_return, breaksAhead_return, if_pos hkeep] at h
  rw [breaksAhead_return, if_pos hkeep]
  by_cases hhead : text.head? = some '\n'
  · rw [if_pos hhead] at h
    rcases ih h with ⟨hw, -⟩ | hs
    · obtain ⟨rest, rfl⟩ := List.head?_eq_some_iff.1 hhead
      exact absurd hw.breaksAhead_eq (Nat.succ_ne_zero (breaksAhead rest))
    · exact .inr (hs.append ['\r'])
  · have hrun := ((head?_blankRuns text).1 hkeep).resolve_left hhead
    by_cases htwo : breaksAhead (blankRun.substitute text) = 2
    · exact .inl ⟨⟨[], text, rfl, rfl, hhead, hrun⟩, htwo⟩
    · have hmore : 2 ≤ breaksAhead (blankRun.substitute text) := by
        rw [blankRuns_run hrun, breaksAhead_feed, breaksAhead_feed]
        omega
      rcases ih (by omega) with ⟨hw, -⟩ | hs
      · rw [hw.breaksAhead_eq] at hrun
        omega
      · exact .inr (hs.append ['\r'])

/-- Where more line breaks begin a text that is cut down than are left of those that began it, a
carriage return was welded to a run: at the start of the text, and then to two line breaks, or behind a
line break. -/
theorem welded_or_stray (h : min (breaksAhead text) 2 < breaksAhead (blankRun.substitute text)) :
    (Welded text ∧ breaksAhead (blankRun.substitute text) = 2) ∨ Stray text := by
  induction text using run_induction with
  | nil => exact absurd h (Nat.lt_irrefl 0)
  | run text hrun ih =>
    rw [blankRuns_run hrun, breaksAhead_feed, breaksAhead_feed] at h
    have hbehind := ih (by rw [breaksAhead_behindBreaks]; omega)
    exact .inr (.of_run (by omega) (hbehind.imp_left And.left))
  | plain c text hc ih =>
    rw [blankRuns_plain hc] at h ⊢
    by_cases hn : c = '\n'
    · subst hn
      rw [breaksAhead_feed] at hc
      rw [breaksAhead_feed, breaksAhead_feed] at h
      right
      rcases ih (by omega) with ⟨hw, -⟩ | hs
      · exact stray_iff.2 ⟨[], text, rfl, hw⟩
      · exact hs.append ['\n']
    by_cases hr : c = '\r'
    · subst hr
      exact welded_or_stray_return ih h
    cases hp : isPad c with
    | true =>
      rw [breaksAhead_pad hp, breaksAhead_pad hp] at h
      rw [breaksAhead_pad hp]
      rcases ih h with ⟨⟨pad, rest, rfl, hpad, hhead⟩, htwo⟩ | hs
      · exact .inl ⟨⟨c :: pad, rest, rfl, by simp [hp, hpad], hhead⟩, htwo⟩
      · exact .inr (hs.append [c])
    | false =>
      rw [breaksAhead_other hn hp hr, breaksAhead_other hn hp hr] at h
      exact absurd h (Nat.lt_irrefl 0)

theorem behindBreaks_append (hrest : breaksAhead text = 0) (front : List Char) :
    behindBreaks (front ++ '\n' :: text) = text ∨
      ∃ between, behindBreaks (front ++ '\n' :: text) = between ++ '\n' :: text := by
  induction front with
  | nil =>
    left
    have hcount : breaksAhead ('\n' :: text) ≠ 0 := Nat.succ_ne_zero _
    rw [List.nil_append, behindBreaks_cons hcount, behindBreaks_of_eq_zero hrest]
  | cons c front ih =>
    rw [List.cons_append, behindBreaks]
    split
    · exact .inr ⟨c :: front, rfl⟩
    · exact ih

/-- A text that no line break begins is cut down on its own behind a line feed, which stays. -/
theorem suffix_blankRuns (hw : breaksAhead w = 0) (front : List Char) :
    '\n' :: blankRun.substitute w <:+ blankRun.substitute (front ++ '\n' :: w) := by
  induction ht : front ++ '\n' :: w using run_induction generalizing front with
  | nil => simp at ht
  | run text hrun ih =>
    rw [blankRuns_run hrun]
    rcases behindBreaks_append hw front with hb | ⟨between, hb⟩
    · rw [← ht, hb]
      exact List.suffix_cons _ _
    · rw [ht] at hb
      exact (ih between hb.symm).trans ((List.suffix_cons _ _).trans (List.suffix_cons _ _))
  | plain c text hc ih =>
    rw [blankRuns_plain hc]
    cases front with
    | nil =>
      obtain ⟨rfl, rfl⟩ := List.cons.inj ht
      exact List.suffix_rfl
    | cons d front =>
      rw [List.cons_append, List.cons.injEq] at ht
      obtain ⟨rfl, ht⟩ := ht
      exact (ih front ht).trans (List.suffix_cons _ _)

theorem Welded.two_le (h : Welded w) : 2 ≤ breaksAhead (blankRun.substitute w) := by
  have hzero := h.breaksAhead_eq
  obtain ⟨pad, rest, rfl, hp, hhead, hrun⟩ := h
  induction pad with
  | nil =>
    rw [List.nil_append] at hzero ⊢
    rw [blankRuns_plain (by omega), blankRuns_run hrun, breaksAhead_return, List.head?_cons, if_pos rfl,
      breaksAhead_feed, breaksAhead_feed]
    omega
  | cons c pad ih =>
    obtain ⟨hc, hpad⟩ : isPad c = true ∧ pad.all isPad = true := by simpa using hp
    rw [List.cons_append] at hzero ⊢
    rw [blankRuns_plain (by omega), breaksAhead_pad hc]
    rw [breaksAhead_pad hc] at hzero
    exact ih hzero hpad

/-- Three line breaks in a row are left only where a carriage return is in front of them. -/
theorem longRun_blankRuns : LongRun (blankRun.substitute text) ↔ Stray text := by
  rw [longRun_iff]
  constructor
  · rintro ⟨tail, htail, hcount⟩
    have hwhole : ∀ {text}, tail = blankRun.substitute text → Stray text := by
      rintro text rfl
      have hmore := welded_or_stray
        (show min (breaksAhead text) 2 < breaksAhead (blankRun.substitute text) by omega)
      exact hmore.resolve_left fun h => by omega
    induction text using run_induction with
    | nil => exact hwhole (List.suffix_nil.1 htail)
    | run text hrun ih =>
      have hbehind : ∀ {text}, 0 < breaksAhead text →
          tail = '\n' :: blankRun.substitute (behindBreaks text) → Stray text := by
        rintro text hpos rfl
        rw [breaksAhead_feed] at hcount
        have hmore := welded_or_stray (show min (breaksAhead (behindBreaks text)) 2 <
          breaksAhead (blankRun.substitute (behindBreaks text)) by rw [breaksAhead_behindBreaks]; omega)
        exact .of_run hpos (hmore.imp_left And.left)
      rw [blankRuns_run hrun, List.suffix_cons_iff, List.suffix_cons_iff] at htail
      rcases htail with htail | htail | htail
      · exact hwhole (htail.trans (blankRuns_run hrun).symm)
      · exact hbehind (by omega) htail
      · exact .of_run (by omega) (.inr (ih htail))
    | plain c text hc ih =>
      rw [blankRuns_plain hc, List.suffix_cons_iff] at htail
      rcases htail with htail | htail
      · exact hwhole (htail.trans (blankRuns_plain hc).symm)
      · exact (ih htail).append [c]
  · intro h
    obtain ⟨front, rest, rfl, hw⟩ := stray_iff.1 h
    refine ⟨_, suffix_blankRuns hw.breaksAhead_eq front, ?_⟩
    rw [breaksAhead_feed]
    have htwo := hw.two_le
    omega

theorem isBlank_of_isPad (hc : isPad c = true) : isBlank c = true := by
  simp only [isPad, Bool.or_eq_true, beq_iff_eq] at hc
  rcases hc with rfl | rfl <;> decide

theorem IsLineBreak.isBlank (h : IsLineBreak x) : x.all isBlank = true := by
  obtain ⟨pad, hp, hx⟩ := h
  have hall : pad.all Text.isBlank = true :=
    List.all_eq_true.2 fun c hc => isBlank_of_isPad (List.all_eq_true.1 hp c hc)
  rcases hx with rfl | rfl
  · rw [List.all_append, hall]
    decide
  · rw [List.all_append, hall]
    decide

theorem IsLongRun.isBlank (h : IsLongRun run) : run.all isBlank = true := by
  obtain ⟨x, y, z, rfl, hx, hy, hz⟩ := h
  rw [List.all_append, List.all_append, hx.isBlank, hy.isBlank, hz.isBlank]
  rfl

theorem longRun_iff_gap (text : List Char) :
    LongRun text ↔ ∃ i ≤ (ink text).length, LongRun (gap text i) := by
  constructor
  · rintro ⟨run, hrun, h⟩
    obtain ⟨i, hi, h⟩ := (infix_iff_gap hrun.isBlank text).1 h
    exact ⟨i, hi, run, hrun, h⟩
  · rintro ⟨i, hi, run, hrun, h⟩
    exact ⟨run, hrun, (infix_iff_gap hrun.isBlank text).2 ⟨i, hi, h⟩⟩

theorem not_longRun_nil : ¬ LongRun [] := by
  rintro ⟨run, hrun, h⟩
  obtain rfl := List.infix_nil.1 h
  have hcount := hrun.breaksAhead_append []
  exact absurd hcount (by decide)

/-- There is no run at the ends of a statement that is laid out, and between characters there is one
where there was a carriage return in front of a run. -/
theorem longRun_layOut (sql : List Char) : LongRun (layOut sql) ↔
    ∃ i, 0 < i ∧ i < (ink sql).length ∧ Stray (gap (connective.substitute (breakClauses sql)) i) := by
  have hgap : ∀ i, 0 < i → i < (ink sql).length → (LongRun (gap (layOut sql) i) ↔
      Stray (gap (connective.substitute (breakClauses sql)) i)) := by
    intro i h₀ hi
    rw [gap_layOut sql h₀ hi, longRun_blankRuns]
  have hends : gap (layOut sql) (ink sql).length = [] := by
    rw [← ink_layOut sql]
    exact sealed_trim _
  rw [longRun_iff_gap, ink_layOut]
  constructor
  · rintro ⟨i, hi, h⟩
    have h₀ : i ≠ 0 := by
      rintro rfl
      rw [layOut, gap_trim_zero] at h
      exact not_longRun_nil h
    have hlast : i ≠ (ink sql).length := by
      rintro rfl
      rw [hends] at h
      exact not_longRun_nil h
    exact ⟨i, by omega, by omega, (hgap i (by omega) (by omega)).1 h⟩
  · rintro ⟨i, h₀, hi, h⟩
    exact ⟨i, hi.le, (hgap i h₀ hi).2 h⟩

theorem Stray.return_mem (h : Stray text) : '\r' ∈ text := by
  obtain ⟨pad, run, -, -, -, hin⟩ := h
  exact hin.subset (by simp)

/-- A run of three line breaks is left exactly where a statement has, in white space that stays, a
carriage return that ends no line between a line break and such a run. -/
theorem longRun_layOut_iff (sql : List Char) : LongRun (layOut sql) ↔
    ∃ i, 0 < i ∧ i < (ink sql).length ∧
      gap (connective.substitute (breakClauses sql)) i = gap sql i ∧ Stray (gap sql i) := by
  rw [longRun_layOut]
  refine exists_congr fun i => and_congr_right fun h₀ => and_congr_right fun hi => ?_
  constructor
  · intro h
    have hkept : gap (connective.substitute (breakClauses sql)) i = gap sql i := by
      have hbreaks := tidies_breakClauses sql i h₀ hi
      have hlinks := tidies_connectives (breakClauses sql) i h₀
        (by rwa [(keepsTokens_breakClauses sql).ink_eq])
      have heq := hlinks.resolve_right (not_not_intro h.return_mem)
      rw [heq] at h ⊢
      exact hbreaks.resolve_right (not_not_intro h.return_mem)
    exact ⟨hkept, hkept ▸ h⟩
  · rintro ⟨hkept, h⟩
    rwa [hkept]

end ReportMigration.Sql.Layout
