import ReportMigration.Proofs.Text.Blind
import ReportMigration.Proofs.Text.Confined
import ReportMigration.Sql.Layout

/-!
# Where clauses begin

The words of a clause and the places of a text where they are found: at its start, or behind white
space.
-/

namespace ReportMigration.Sql.Layout

open Text Scan

def singleWords : List String :=
  ["SELECT", "FROM", "WHERE", "HAVING", "UNION", "EXCEPT", "INTERSECT"]

def doubleWords : List (String × String) :=
  [("GROUP", "BY"), ("ORDER", "BY"), ("UNION", "ALL")]

/-- The words of a clause are read one by one, a pair of words with white space between them. -/
theorem clauseKeyword_induction {P : Scan Unit → Prop} (none : P fun _ => none)
    (orElse : ∀ p q, P p → P q → P (p.orElse q))
    (single : ∀ w ∈ singleWords, P (do Scan.keyword w; Scan.wordBoundary))
    (double : ∀ w ∈ doubleWords,
      P (do (do Scan.keyword w.1; Scan.blanks₁; Scan.keyword w.2); Scan.wordBoundary)) :
    P clauseKeyword := by
  simp only [singleWords, List.forall_mem_cons] at single
  simp only [doubleWords, List.forall_mem_cons] at double
  obtain ⟨hselect, hfrom, hwhere, hhaving, hunion, hexcept, hintersect, -⟩ := single
  obtain ⟨hgroup, horder, hall, -⟩ := double
  exact orElse _ _ hselect (orElse _ _ hfrom (orElse _ _ hwhere (orElse _ _ hgroup
    (orElse _ _ hhaving (orElse _ _ horder (orElse _ _ hall (orElse _ _ hunion
      (orElse _ _ hexcept (orElse _ _ hintersect none)))))))))

/-- The words of a clause as they are written. -/
inductive ClauseWords : List Char → Prop
  | single {w : String} {t : List Char} (hw : w ∈ singleWords) (ht : Spells w t) : ClauseWords t
  | double {w : String × String} {t gap u : List Char} (hw : w ∈ doubleWords) (ht : Spells w.1 t)
      (hgap : gap.all isBlank = true) (hu : Spells w.2 u) : ClauseWords (t ++ (gap ++ u))

theorem yields_clauseKeyword : Yields clauseKeyword fun _ t => ClauseWords t := by
  refine clauseKeyword_induction (P := fun p => Yields p fun _ t => ClauseWords t)
    (fun _ _ _ h => by cases h) ?_ ?_ ?_
  · intro p q hp hq
    exact (hp.orElse hq).mono fun _ _ h => h.elim id id
  · intro w hw
    refine ((yields_letters _).bind fun _ => yields_guard _).mono ?_
    rintro _ t ⟨-, u, _, rfl, hu, rfl⟩
    rw [List.append_nil]
    exact .single hw hu
  · intro w hw
    refine (((yields_letters _).bind fun _ => (yields_run₁ _).bind fun _ => yields_letters _).bind
      fun _ => yields_guard _).mono ?_
    rintro _ t ⟨-, _, _, rfl, ⟨-, t, _, rfl, ht, -, gap, u, rfl, hgap, hu⟩, rfl⟩
    rw [List.append_nil]
    exact .double hw ht hgap hu

private theorem isWord_words : (∀ w ∈ singleWords,
      w.toList.all (fun c => c.toNat < 0x80 && isWord c) = true ∧ 4 ≤ w.toList.length) ∧
    ∀ w ∈ doubleWords, w.1.toList.all (fun c => c.toNat < 0x80 && isWord c) = true ∧
      w.2.toList.all (fun c => c.toNat < 0x80 && isWord c) = true ∧ 2 ≤ w.2.toList.length ∧
        7 ≤ w.1.toList.length + w.2.toList.length := by
  decide

theorem blind_clauseKeyword : Blind clauseKeyword := by
  refine clauseKeyword_induction (P := Blind) (fun _ _ _ _ _ _ => .inl ⟨rfl, rfl⟩) (fun _ _ => Blind.orElse) ?_ ?_
  · intro w hw
    exact (blind_letters (isWord_words.1 w hw).1).bind fun _ => blind_wordBoundary
  · intro w hw
    obtain ⟨hfirst, hsecond, hlen, -⟩ := isWord_words.2 w hw
    refine ((blind_letters hfirst).bind fun _ =>
      (blind_letters hsecond).behind_blanks fun b => ?_).bind fun _ => blind_wordBoundary
    rw [Option.eq_none_iff_forall_ne_some]
    rintro ⟨u, n⟩ h
    have hnil := congrArg List.length (letters_eq_some.1 h).1
    simp only [List.take_nil, List.map_nil, List.length_nil, List.length_map] at hnil
    omega

theorem confined_clauseKeyword : Confined ';' clauseKeyword := by
  refine clauseKeyword_induction (P := Confined ';') ⟨fun h => (by cases h), fun _ _ _ => rfl, fun _ _ => rfl⟩
    (fun _ _ => Confined.orElse) ?_ ?_
  · intro w hw
    refine (Confined.letters ?_).bind fun _ => Confined.wordBoundary (by decide)
    revert w
    decide +kernel
  · intro w hw
    refine ((Confined.letters ?_).bind fun _ => (Confined.run₁ (by decide)).bind fun _ =>
      Confined.letters ?_).bind fun _ => Confined.wordBoundary (by decide)
    all_goals
      revert w
      decide +kernel

namespace ClauseWords

variable {t : List Char}

private theorem all_isWord {w : String} {u : List Char}
    (hw : w.toList.all (fun c => c.toNat < 0x80 && isWord c) = true) (hu : Spells w u) :
    u.all isWord = true ∧ ink u = u ∧ u.length = w.toList.length := by
  have hword : ∀ c ∈ u, isWord c = true := fun c hc => hu.isWord_of_mem hw hc
  refine ⟨List.all_eq_true.2 hword, ?_, by simpa using congrArg List.length hu⟩
  exact List.filter_eq_self.2 fun c hc => by simp [isBlank_of_isWord (hword c hc)]

/-- The words begin with a letter, end with a letter, and have four letters at least. -/
theorem shape (h : ClauseWords t) : t.head?.any isWord = true ∧ t.getLast?.any isWord = true ∧
    4 ≤ (ink t).length := by
  have hends : ∀ {u : List Char}, u.all isWord = true → u ≠ [] →
      u.head?.any isWord = true ∧ u.getLast?.any isWord = true := by
    intro u hu hne
    rw [List.all_eq_true] at hu
    rw [List.head?_eq_some_head hne, List.getLast?_eq_some_getLast hne]
    exact ⟨hu _ (List.head_mem hne), hu _ (List.getLast_mem hne)⟩
  cases h with
  | single hw ht =>
    obtain ⟨hword, hlen⟩ := isWord_words.1 _ hw
    obtain ⟨hall, hink, hl⟩ := all_isWord hword ht
    have hne := hends hall (List.ne_nil_of_length_pos (by omega))
    exact ⟨hne.1, hne.2, by rw [hink]; omega⟩
  | @double w u gap v hw hu hgap hv =>
    obtain ⟨hfirst, hsecond, hlen, hsum⟩ := isWord_words.2 _ hw
    obtain ⟨hall, hink, hl⟩ := all_isWord hfirst hu
    obtain ⟨hall', hink', hl'⟩ := all_isWord hsecond hv
    have hune : u ≠ [] := hu.ne_nil (by clear hu hv hl hl' hlen hsum; revert w; decide)
    have hvne : v ≠ [] := List.ne_nil_of_length_pos (by omega)
    refine ⟨?_, ?_, ?_⟩
    · rw [List.head?_append, List.head?_eq_some_head hune, Option.some_or,
        ← List.head?_eq_some_head hune]
      exact (hends hall hune).1
    · rw [← List.append_assoc, List.getLast?_append, List.getLast?_eq_some_getLast hvne, Option.some_or,
        ← List.getLast?_eq_some_getLast hvne]
      exact (hends hall' hvne).2
    · rw [ink_append, ink_append, hink, hink', List.length_append, List.length_append]
      omega

theorem ink_eq_self (h : ClauseWords t) (hlen : (ink t).length ≤ 6) : ink t = t := by
  cases h with
  | single hw ht => exact (all_isWord (isWord_words.1 _ hw).1 ht).2.1
  | @double w u gap v hw hu hgap hv =>
    obtain ⟨hfirst, hsecond, -, hsum⟩ := isWord_words.2 _ hw
    obtain ⟨-, hink, hl⟩ := all_isWord hfirst hu
    obtain ⟨-, hink', hl'⟩ := all_isWord hsecond hv
    rw [ink_append, ink_append, hink, hink', ink_blank hgap, List.nil_append,
      List.length_append] at hlen
    omega

end ClauseWords

variable {b : Option Char} {c : Char} {g t w x : List Char}

theorem clauseKeyword_of_head (ht : t.head?.any isWord = false) : clauseKeyword ⟨b, t⟩ = none := by
  rw [Option.eq_none_iff_forall_ne_some]
  rintro ⟨u, n⟩ h
  have hhead := (yields_clauseKeyword _ _ _ h).shape.1
  rw [List.head?_take] at hhead
  split at hhead
  · simp at hhead
  · simp [ht] at hhead

private theorem beside_blank (hg : g.all isBlank = true) (t : List Char) :
    clauseKeyword ⟨g.getLast?, t⟩ = clauseKeyword ⟨none, t⟩ := by
  exact confined_clauseKeyword.beside t (getLast?_any_isWord_of_blank hg)

theorem clauseStart_blanks (hg : g.all isBlank = true) (hne : g ≠ [])
    (ht : t.head?.any isBlank = false) :
    clauseStart ⟨b, g ++ t⟩ = (clauseKeyword ⟨none, t⟩).map fun r => (t.take r.2, g.length + r.2) := by
  have hrun : (g ++ t).takeWhile isBlank = g := by
    rw [List.takeWhile_append_of_pos (by simpa using hg)]
    cases t with
    | nil => simp
    | cons c t => rw [List.takeWhile_cons_of_neg (by simpa using ht), List.append_nil]
  have hfirst : (do Scan.start; Scan.written clauseKeyword : Scan (List Char)) ⟨b, g ++ t⟩ = none := by
    rw [Option.eq_none_iff_forall_ne_some]
    rintro ⟨u, k⟩ h
    obtain ⟨_, n, m, hn, hm, -⟩ := bind_eq_some.1 h
    obtain ⟨-, rfl⟩ := guard_eq_some.1 hn
    obtain ⟨r, hr, -⟩ := Option.map_eq_some_iff.1 hm
    rw [advance_zero, clauseKeyword_of_head] at hr
    · cases hr
    · cases g with
      | nil => exact absurd rfl hne
      | cons d g => exact isWord_of_isBlank (List.all_eq_true.1 hg d (List.mem_cons_self))
  have hsecond : blanks₁ ⟨b, g ++ t⟩ = some ((), g.length) :=
    run₁_eq_some.2 ⟨by rw [hrun], List.length_pos_iff.2 hne⟩
  have hlast : g.getLast?.or b = g.getLast? := Option.or_of_isSome (List.getLast?_isSome.2 hne)
  rw [clauseStart, Scan.orElse, hfirst, Option.none_or, bind_apply, hsecond]
  simp only [Option.bind_some, Cursor.advance, List.take_left', List.drop_left', hlast, Scan.written,
    beside_blank hg, Option.map_map]
  rfl

theorem clauseStart_start (ht : t.head?.any isBlank = false) :
    clauseStart ⟨none, t⟩ = (clauseKeyword ⟨none, t⟩).map fun r => (t.take r.2, r.2) := by
  have hrun : blanks₁ ⟨none, t⟩ = none := by
    cases t with
    | nil => rfl
    | cons c t => simp [blanks₁, run₁, show isBlank c = false by simpa using ht]
  rw [clauseStart, Scan.orElse, bind_apply, bind_apply, hrun]
  simp [Scan.start, Scan.guard, Scan.written, Cursor.advance, Function.comp_def]

theorem clauseStart_ink (ht : t.head?.any isBlank = false) : clauseStart ⟨some c, t⟩ = none := by
  have hrun : blanks₁ ⟨some c, t⟩ = none := by
    cases t with
    | nil => rfl
    | cons c t => simp [blanks₁, run₁, show isBlank c = false by simpa using ht]
  rw [clauseStart, Scan.orElse, bind_apply, bind_apply, hrun]
  simp [Scan.start, Scan.guard]

/-- What stands before the first clause of the text behind a character, and the clauses. -/
def clausesFrom (b : Option Char) (text : List Char) : List Char × List Clause :=
  clausesOf (clauseStart.segmentsFrom 0 b text)

private theorem clausesFrom_blanks (hg : g.all isBlank = true) (ht : t.head?.any isBlank = false)
    (hmiss : clauseKeyword ⟨none, t⟩ = none) : clausesFrom b (g ++ t) =
      (g ++ (clausesFrom (g.getLast?.or b) t).1, (clausesFrom (g.getLast?.or b) t).2) := by
  induction g generalizing b with
  | nil => rfl
  | cons d g ih =>
    have hplain : ∀ a n, clauseStart ⟨b, d :: (g ++ t)⟩ ≠ some (a, n + 1) := by
      intro a n h
      rw [← List.cons_append, clauseStart_blanks hg (List.cons_ne_nil d g) ht, hmiss] at h
      cases h
    have hall : g.all isBlank = true := by
      rw [List.all_cons, Bool.and_eq_true] at hg
      exact hg.2
    rw [List.cons_append, clausesFrom, segmentsFrom_plain hplain, clausesOf, getLast?_cons_or]
    rw [show clausesOf (segmentsFrom clauseStart 0 (some d) (g ++ t)) = _ from ih hall]
    rfl

theorem clausesFrom_blank (hg : g.all isBlank = true) : clausesFrom b g = (g, []) := by
  have h := clausesFrom_blanks (b := b) hg (t := []) rfl (clauseKeyword_of_head rfl)
  rw [List.append_nil] at h
  rw [h]
  exact Prod.ext (List.append_nil g) rfl

theorem clausesFrom_miss (hg : g.all isBlank = true) (hc : isBlank c = false)
    (hmiss : clauseKeyword ⟨none, c :: x⟩ = none ∨ (g = [] ∧ b ≠ none)) :
    clausesFrom b (g ++ c :: x) =
      (g ++ c :: (clausesFrom (some c) x).1, (clausesFrom (some c) x).2) := by
  have hhead : (c :: x).head?.any isBlank = false := by simpa using hc
  have hplain : ∀ {b}, clauseStart ⟨b, c :: x⟩ = none →
      clausesFrom b (c :: x) = (c :: (clausesFrom (some c) x).1, (clausesFrom (some c) x).2) := by
    intro b h
    rw [clausesFrom, segmentsFrom_plain fun a n he => by simp [h] at he]
    rfl
  rcases hmiss with hmiss | ⟨rfl, hb⟩
  · rw [clausesFrom_blanks hg hhead hmiss, hplain]
    cases g.getLast?.or b with
    | none => rw [clauseStart_start hhead, hmiss, Option.map_none]
    | some d => exact clauseStart_ink hhead
  · obtain ⟨d, rfl⟩ := Option.ne_none_iff_exists'.1 hb
    exact hplain (clauseStart_ink hhead)

theorem clausesFrom_hit (hg : g.all isBlank = true) (hgate : g ≠ [] ∨ b = none)
    (hw : clauseKeyword ⟨none, w ++ x⟩ = some ((), w.length)) :
    clausesFrom b (g ++ (w ++ x)) = ([], ⟨w, (clausesFrom w.getLast? x).1⟩ ::
      (clausesFrom w.getLast? x).2) := by
  have hword : ClauseWords w := by
    have h := yields_clauseKeyword _ _ _ hw
    rwa [List.take_left' rfl] at h
  have hne : w ≠ [] := by
    rintro rfl
    exact absurd hword.shape.1 (by decide)
  have hhead : (w ++ x).head?.any isBlank = false := by
    have hfirst := hword.shape.1
    rw [List.head?_append, List.head?_eq_some_head hne] at *
    exact isBlank_of_isWord hfirst
  have hread : clauseStart ⟨b, g ++ w ++ x⟩ = some (w, (g ++ w).length) := by
    rw [List.append_assoc, List.length_append]
    by_cases hg₀ : g = []
    · obtain rfl := hgate.resolve_left (not_not_intro hg₀)
      rw [hg₀, List.nil_append, clauseStart_start hhead, hw]
      simp
    · rw [clauseStart_blanks hg hg₀ hhead, hw]
      simp
  have hlast : (g ++ w).getLast? = w.getLast? := by
    rw [List.getLast?_append, List.getLast?_eq_some_getLast hne]
    rfl
  rw [← List.append_assoc, clausesFrom, segmentsFrom_append_hit (by simp [hne]) hread, hlast]
  rfl

end ReportMigration.Sql.Layout
