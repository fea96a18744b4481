import ReportMigration.Proofs.Sql.Layout.BlankRuns
import ReportMigration.Proofs.Sql.Layout.Breaks
import ReportMigration.Proofs.Sql.Layout.Connectives

/-!
# Laying out keeps words apart

No step of laying out changes a character other than white space, takes away all the white space
between two of them, or puts some where there was none, except behind a comma.
-/

namespace ReportMigration.Sql.Layout

open Text Scan

variable {g s t u x y : List Char}

/-- A text and what becomes of it have the same characters other than white space. White space
between two of them stays, and where it is new the first of the two is a comma. -/
structure KeepsTokens (s t : List Char) : Prop where
  ink_eq : ink t = ink s
  kept : ∀ i, 0 < i → i < (ink s).length → gap s i ≠ [] → gap t i ≠ []
  added : ∀ i, 0 < i → i < (ink s).length → gap s i = [] → gap t i ≠ [] →
    (ink s)[i - 1]? = some ','

namespace KeepsTokens

theorem trans (h : KeepsTokens s t) (h' : KeepsTokens t u) : KeepsTokens s u where
  ink_eq := h'.ink_eq.trans h.ink_eq
  kept i hi hn hs := h'.kept i hi (h.ink_eq ▸ hn) (h.kept i hi hn hs)
  added i hi hn hs hu := by
    by_cases ht : gap t i = []
    · rw [← h.ink_eq]
      exact h'.added i hi (h.ink_eq ▸ hn) ht hu
    · exact h.added i hi hn hs ht

theorem of_gap_iff (hi : ink t = ink s)
    (hg : ∀ i, 0 < i → i < (ink s).length → (gap t i = [] ↔ gap s i = [])) : KeepsTokens s t where
  ink_eq := hi
  kept i hpos hn hs := mt (hg i hpos hn).1 hs
  added i hpos hn hs ht := absurd ((hg i hpos hn).2 hs) ht

theorem of_respaced {rel : Option Char → Nat → List Char → List Char → List Char → List Char → Prop}
    (hr : Respaced rel none s s t t)
    (hrel : ∀ {b n g h}, n ≠ 0 → rel b n g g h h → (g ≠ [] → h ≠ []) ∧ (g = [] → h ≠ [] → b = some ',')) :
    KeepsTokens s t where
  ink_eq := hr.ink_left
  kept i _ hn := (hrel (by omega) (hr.gaps i hn.le)).1
  added i hi hn hs ht := by
    have hb := (hrel (by omega) (hr.gaps i hn.le)).2 hs ht
    rw [beforeGap, Option.or_none, List.getLast?_take, if_neg (by omega)] at hb
    rwa [List.getElem?_eq_getElem (by omega), Option.some_or, ← List.getElem?_eq_getElem] at hb

end KeepsTokens

/-- A text that is not all white space is what follows its first gap, broken into lines with the
gap in front of it or without. -/
theorem breakClauses_cases (s : List Char) (hs : s.all isBlank = false) :
    (trimStart s).head?.any (fun c => !isBlank c) = true ∧
      ((¬ NoClause (trimStart s) ∧ breakClauses s = breakClauses (trimStart s)) ∨
        (NoClause (trimStart s) ∧ breakClauses s = gap s 0 ++ breakClauses (trimStart s))) := by
  have hhead : (trimStart s).head?.any (fun c => !isBlank c) = true := by
    rcases blank_or_cell s with hb | ⟨g, c, x, rfl, hg, hc⟩
    · rw [hb] at hs
      cases hs
    · rw [trimStart, dropWhile_cell hg hc]
      simpa using hc
  refine ⟨hhead, ?_⟩
  have h := breakClauses_append (all_gap s 0) hhead
  rwa [gap_append_trimStart] at h

theorem gap_breakClauses (s : List Char) : ink (breakClauses s) = ink (breakClauses (trimStart s)) ∧
    ∀ i, 0 < i → gap (breakClauses s) i = gap (breakClauses (trimStart s)) i := by
  cases hs : s.all isBlank with
  | true =>
    rw [trimStart_eq_nil hs, breakClauses_blank hs, breakClauses_blank (g := []) rfl, ink_blank hs]
    refine ⟨rfl, fun i hi => ?_⟩
    obtain ⟨j, rfl⟩ : ∃ j, i = j + 1 := ⟨i - 1, by omega⟩
    rw [gap_blank_succ hs, gap_nil]
  | false =>
    rcases (breakClauses_cases s hs).2 with ⟨-, h⟩ | ⟨-, h⟩
    · rw [h]
      exact ⟨rfl, fun _ _ => rfl⟩
    · rw [h, ink_append, ink_blank (all_gap s 0), List.nil_append]
      exact ⟨rfl, fun i hi => gap_append_blank (all_gap s 0) _ hi⟩

theorem keepsTokens_breakClauses (s : List Char) : KeepsTokens s (breakClauses s) := by
  have hstart : KeepsTokens (trimStart s) (breakClauses (trimStart s)) := by
    cases hs : s.all isBlank with
    | true =>
      rw [trimStart_eq_nil hs, breakClauses_blank (g := []) rfl]
      exact .of_gap_iff rfl fun _ _ _ => Iff.rfl
    | false =>
      refine .of_respaced (respaced_breakClauses (.refl _ _ _) (breakClauses_cases s hs).1) ?_
      intro b n g h hn hr
      cases hr with
      | keep => exact ⟨id, fun hg hne => absurd hg hne⟩
      | set ht hgate _ => exact ⟨fun _ => ht, fun hg _ => hgate.resolve_left (not_not_intro hg)⟩
      | last hn' _ _ => exact absurd hn' hn
  obtain ⟨hink, hgap⟩ := gap_breakClauses s
  have hlead : ∀ i, 0 < i → gap (trimStart s) i = gap s i := by
    intro i hi
    obtain ⟨j, rfl⟩ : ∃ j, i = j + 1 := ⟨i - 1, by omega⟩
    exact gap_trimStart_succ s j
  refine ⟨by rw [hink, hstart.ink_eq, ink_trimStart], fun i hi hn hs => ?_, fun i hi hn hs ht => ?_⟩
  · rw [hgap i hi]
    exact hstart.kept i hi (by rwa [ink_trimStart]) (by rwa [hlead i hi])
  · rw [hgap i hi] at ht
    have h := hstart.added i hi (by rwa [ink_trimStart]) (by rwa [hlead i hi]) ht
    rwa [ink_trimStart] at h

theorem gap_connectives_eq_nil (x : List Char) {i : Nat} (hi : i < (ink x).length) :
    gap (connective.substitute x) i = [] ↔ gap x i = [] := by
  have hrel : ∀ {b n g h}, n ≠ 0 → Joins b n g g h h → (h = [] ↔ g = []) := by
    intro b n g h hn hr
    cases hr with
    | keep => exact Iff.rfl
    | set ht hg => exact iff_of_false ht hg
    | late hg _ => exact iff_of_false hg hg
    | last hn' => exact absurd hn' hn
  have hself : Matched x x := ⟨rfl, fun _ _ => Iff.rfl, id⟩
  exact hrel (by omega) ((respaced_connectives none hself).gaps i hi.le)

theorem keepsTokens_connectives (x : List Char) : KeepsTokens x (connective.substitute x) :=
  .of_gap_iff (respaced_connectives none ⟨rfl, fun _ _ => Iff.rfl, id⟩).ink_left
    fun _ _ hn => gap_connectives_eq_nil x hn

theorem keepsTokens_blankRuns (x : List Char) : KeepsTokens x (blankRun.substitute x) :=
  .of_gap_iff (ink_blankRuns x) fun i _ _ => by
    rw [gap_blankRuns]
    exact (blankRuns_blank (all_gap x i)).2

theorem keepsTokens_trim (x : List Char) : KeepsTokens x (trim x) :=
  .of_gap_iff (ink_trim x) fun i hi hn => by rw [gap_trim x hi hn]

/-- Laying out a statement changes white space only, and neither joins words nor splits them. -/
theorem keepsTokens_layOut (sql : List Char) : KeepsTokens sql (layOut sql) :=
  (keepsTokens_breakClauses sql).trans <| (keepsTokens_connectives _).trans <|
    (keepsTokens_blankRuns _).trans (keepsTokens_trim _)

end ReportMigration.Sql.Layout
