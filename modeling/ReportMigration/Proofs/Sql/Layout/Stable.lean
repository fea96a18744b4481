import ReportMigration.Proofs.Sql.Layout.Separators

/-!
# Laying out a statement again

When a statement that is laid out stays as it is. The line breaks of the first run are those of the
second one, gap by gap, unless white space behind a comma comes to stand in front of a clause, a
connective at the start of the text loses the white space in front of it, or cutting down blank
lines leaves a run of them.
-/

namespace ReportMigration.Sql.Layout

open Text Scan

variable {b : Option Char} {c : Char} {g s t u w x y : List Char} {i n : Nat}

theorem ink_layOut (sql : List Char) : ink (layOut sql) = ink sql :=
  (keepsTokens_layOut sql).ink_eq

/-- Between characters other than white space laying out is breaking lines and cutting down blank
lines. -/
theorem gap_layOut (sql : List Char) (h₀ : 0 < i) (hi : i < (ink sql).length) :
    gap (layOut sql) i =
      blankRun.substitute (gap (connective.substitute (breakClauses sql)) i) := by
  have hink : ink (blankRun.substitute (connective.substitute (breakClauses sql))) = ink sql :=
    ((keepsTokens_breakClauses sql).trans <| (keepsTokens_connectives _).trans <|
      keepsTokens_blankRuns _).ink_eq
  rw [layOut, gap_trim _ h₀ (by rwa [hink]), gap_blankRuns]

theorem layOut_eq_of_gap (hi : ink s = ink t) (h : ∀ i, 0 < i → i < (ink s).length →
    gap (layOut s) i = gap (layOut t) i) : layOut s = layOut t := by
  have hends : ∀ r, gap (layOut r) 0 = [] ∧ gap (layOut r) (ink r).length = [] := by
    intro r
    have hlast : Sealed (layOut r) := sealed_trim _
    rw [Sealed, ink_layOut] at hlast
    exact ⟨gap_trim_zero _, hlast⟩
  refine eq_of_gap_eq (by rw [ink_layOut, ink_layOut, hi]) fun i hn => ?_
  rw [ink_layOut] at hn
  by_cases h₀ : i = 0
  · rw [h₀, (hends s).1, (hends t).1]
  by_cases hl : i = (ink s).length
  · rw [hl, (hends s).2, hi, (hends t).2]
  · exact h i (by omega) (by omega)

/-- Texts that are broken into the same lines are laid out in the same way. -/
theorem layOut_congr (hi : ink s = ink t) (h : ∀ i, 0 < i → i < (ink s).length →
    gap (connective.substitute (breakClauses s)) i =
      gap (connective.substitute (breakClauses t)) i) : layOut s = layOut t :=
  layOut_eq_of_gap hi fun i h₀ hn => by
    rw [gap_layOut s h₀ hn, gap_layOut t h₀ (hi ▸ hn), h i h₀ hn]

private theorem gap_again {gs gy gx gx' gu gu' : List Char} (hn : n ≠ 0)
    (hb : Breaks b n gs gy gx gx') (hj : Joins b n gx gx' gu gu')
    (hy : gy = blankRun.substitute gu) (hkeep : blankRun.substitute gy = gy) :
    blankRun.substitute gu' = gy := by
  cases hj with
  | set _ _ => exact hy.symm
  | last hn' => exact absurd hn' hn
  | keep =>
    cases hb with
    | keep => exact hkeep
    | set _ _ _ => exact hy.symm
    | last hn' _ _ => exact absurd hn' hn
  | late _ hshort =>
    cases hb with
    | keep => exact hkeep
    | set _ _ hshape =>
      -- A connective that ends the text is too short for a clause.
      obtain rfl := hshape.resolve_right (by omega)
      exact hy.symm
    | last hn' _ _ => exact absurd hn' hn

/-- White space that laying out puts behind a comma does not stand in front of a clause. -/
def Apart (sql : List Char) : Prop :=
  ∀ i, 0 < i → i < (ink sql).length → gap sql i = [] → gap (layOut sql) i ≠ [] →
    NoClause (behindGap sql i)

instance (text : List Char) : Decidable (NoClause text) :=
  inferInstanceAs (Decidable (clauseKeyword ⟨none, text⟩ = none))

instance (sql : List Char) : Decidable (Apart sql) :=
  decidable_of_iff (∀ i < (ink sql).length, 0 < i → gap sql i = [] → gap (layOut sql) i ≠ [] →
    NoClause (behindGap sql i)) ⟨fun h i h₀ hi => h i hi h₀, fun h i hi h₀ => h i h₀ hi⟩

theorem apart_of_comma (h : ∀ front back, s = front ++ ',' :: back → NoClause back) : Apart s := by
  intro i h₀ hi hg hy
  obtain ⟨j, rfl⟩ : ∃ j, i = j + 1 := ⟨i - 1, by omega⟩
  obtain ⟨front, c, hc, hs⟩ := exists_front s (Nat.lt_of_succ_lt hi)
  have hcomma := (keepsTokens_layOut s).added _ h₀ hi hg hy
  obtain rfl : c = ',' := Option.some.inj (hc.symm.trans hcomma)
  rw [hg, List.nil_append] at hs
  exact h front _ hs

theorem Apart.alike (h : Apart s) (hs : gap s 0 = []) : Alike NoClause none s (layOut s) := by
  have hkeeps := keepsTokens_layOut s
  refine ⟨hkeeps.ink_eq, fun i hi => ?_⟩
  by_cases h₀ : i = 0
  · rw [h₀, hs, layOut, gap_trim_zero]
    exact .inl Iff.rfl
  have hpos := Nat.pos_of_ne_zero h₀
  by_cases hg : gap s i = []
  · by_cases hy : gap (layOut s) i = []
    · exact .inl (by rw [hg, hy])
    · right
      refine ⟨?_, h i hpos hi hg hy⟩
      have hcomma := hkeeps.added i hpos hi hg hy
      rw [beforeGap, Option.or_none, List.getLast?_take, if_neg h₀, hcomma, Option.some_or]
  · exact .inl (iff_of_false hg (hkeeps.kept i hpos hi hg))

/-- The second run breaks lines at a gap if the first one left some white space there. -/
private theorem eq_nil_iff {g h g' h' : List Char} (hn : n ≠ 0) (hb : Breaks b n g h g' h')
    (hh : h = [] ↔ g' = []) : g' = [] ↔ h' = [] := by
  cases hb with
  | keep => exact hh.symm
  | set _ _ _ => exact Iff.rfl
  | last hn' _ _ => exact absurd hn' hn

private theorem ne_nil_of_right {g g' h' : List Char} (hb : Breaks b n g [] g' h') (hh : h' ≠ []) :
    g' ≠ [] := by
  cases hb with
  | keep => exact absurd rfl hh
  | set ht _ _ => exact ht
  | last _ _ hh' => exact absurd (hh' rfl) hh

/-- A text that begins with something other than white space is broken into lines that go on with
white space in the same gaps when they are laid out and broken into lines again. -/
private theorem matched_breakClauses (hs : gap s 0 = []) (hb : Respaced Breaks none s (layOut s)
    (breakClauses s) (breakClauses (layOut s))) :
    Matched (breakClauses s) (breakClauses (layOut s)) := by
  refine ⟨hb.ink_right.trans hb.ink_left.symm, fun i hi => ?_, fun hne => ?_⟩
  · rw [hb.ink_left] at hi
    have hrel := hb.gaps i hi.le
    by_cases h₀ : i = 0
    · rw [h₀, hs, layOut, gap_trim_zero] at hrel
      rw [h₀, hrel.eq_of_nil, layOut]
    · refine eq_nil_iff (by omega) hrel ?_
      rw [gap_layOut s (Nat.pos_of_ne_zero h₀) hi, (blankRuns_blank (all_gap _ i)).2,
        gap_connectives_eq_nil _ (by rwa [hb.ink_left])]
  · rw [hb.ink_left] at hne ⊢
    have hrel := hb.gaps _ le_rfl
    have hlast : gap (layOut s) (ink s).length = [] := by
      rw [← ink_layOut s]
      exact sealed_trim _
    rw [hlast] at hrel
    exact ne_nil_of_right hrel hne

theorem layOut_layOut_of_gap (hs : s.head?.any (fun c => !isBlank c) = true) (hapart : Apart s)
    (hbreaks : blankRun.occurs (layOut s) = false) : layOut (layOut s) = layOut s := by
  have hg₀ : gap s 0 = [] := gap_append_zero (g := []) rfl hs
  have hb := respaced_breakClauses (hapart.alike hg₀) hs
  have hj := respaced_connectives none (matched_breakClauses hg₀ hb)
  have hink := (keepsTokens_breakClauses s).ink_eq
  refine layOut_eq_of_gap (ink_layOut s) fun i h₀ hi => ?_
  rw [gap_layOut _ h₀ hi]
  rw [ink_layOut] at hi
  have hrel := hj.gaps i (by rw [hink]; exact hi.le)
  rw [beforeGap, hink] at hrel
  have hkeep : blankRun.substitute (gap (layOut s) i) = gap (layOut s) i := by
    rw [← gap_blankRuns, substitute_eq_self hbreaks]
  exact gap_again (by omega) (hb.gaps i hi.le) hrel (gap_layOut s h₀ hi) hkeep

theorem Linked.of_breaks {v : List Char} (hr : Respaced Breaks none x x y y) (h : Linked y w v) :
    ∃ z, Linked x w z ∧ ink z = ink v := by
  obtain ⟨hw₀, hw, -⟩ := h.shape
  have hnear : Near y x := by
    refine Alike.symm ⟨hr.ink_left, fun i hi => ?_⟩
    have hrel : ∀ {b n g h}, n ≠ 0 → Breaks b n g g h h → (g = [] ↔ h = []) ∨ (b = some ',' ∧ True) := by
      intro b n g h hn hb
      cases hb with
      | keep => exact .inl Iff.rfl
      | set ht hgate _ => exact hgate.imp (fun hg => iff_of_false hg ht) fun hb => ⟨hb, trivial⟩
      | last hn' _ _ => exact absurd hn' hn
    exact hrel (by omega) (hr.gaps i hi.le)
  obtain rfl := h.eq
  obtain ⟨z, rfl, hvz⟩ := near_of_word hw hnear
  refine ⟨z, h.exchange ?_, hvz.ink_eq⟩
  -- A line only breaks behind white space or a comma, and the word ends with neither.
  have hlast : lastInk none w ≠ some ',' := by
    intro hcomma
    rw [lastInk, ink_word hw, Option.or_none] at hcomma
    have hword := List.all_eq_true.1 hw _ (List.mem_of_getLast? hcomma)
    exact absurd hword (by decide)
  have hrel := hr.gaps w.length (by simp [ink_word hw])
  have hgap : ∀ t, gap (w ++ t) w.length = gap t 0 := by
    intro t
    have hg := gap_append_of_sealed (sealed_word hw) t 0
    rwa [ink_word hw, Nat.add_zero] at hg
  have hbefore : beforeGap none (w ++ z) w.length = lastInk none w := by
    have hb := beforeGap_append none w z 0
    rwa [ink_word hw, Nat.add_zero, beforeGap_zero] at hb
  rw [hgap, hgap, hbefore] at hrel
  have hopen : ∀ {b n g h}, b ≠ some ',' → Breaks b n g g h h → h ≠ [] → g ≠ [] := by
    intro b n g h hb hr hh
    cases hr with
    | keep => exact hh
    | set _ hgate _ => exact hgate.resolve_right hb
    | last _ hg _ => exact mt hg hh
  exact hopen hlast hrel h.blank

theorem Apart.trimStart (h : Apart s) (hs : layOut s = layOut (trimStart s)) : Apart (trimStart s) := by
  intro i h₀ hi hg hy
  rw [ink_trimStart] at hi
  rw [← hs] at hy
  have hgap := gap_append_blank (all_gap s 0) (Text.trimStart s) h₀
  have hbehind := behindGap_append_blank (all_gap s 0) (Text.trimStart s) h₀
  rw [gap_append_trimStart] at hgap hbehind
  rw [← hbehind]
  exact h i h₀ hi (hgap.trans hg) hy

/-- Other white space around the first word comes behind no comma. -/
theorem Apart.regap (h : Apart (g ++ (w ++ (u ++ x)))) (hg : g.all isBlank = true)
    (hw : w.all isWord = true) (hu : u.all isBlank = true)
    (hs : layOut (g ++ (w ++ (u ++ x))) = layOut (w ++ ([' '] ++ x))) : Apart (w ++ ([' '] ++ x)) := by
  intro i h₀ hi hgap hy
  have hink : ink (g ++ (w ++ (u ++ x))) = ink (w ++ ([' '] ++ x)) := by
    rw [← ink_layOut, hs, ink_layOut]
  have hcomma := (keepsTokens_layOut _).added i h₀ hi hgap hy
  have hlt : w.length < i := by
    by_contra hle
    rw [ink_append, ink_word hw, List.getElem?_append_left (by omega)] at hcomma
    exact absurd (List.all_eq_true.1 hw _ (List.mem_of_getElem? hcomma)) (by decide)
  obtain ⟨j, rfl⟩ : ∃ j, i = (ink w).length + (j + 1) :=
    ⟨i - w.length - 1, by rw [ink_word hw]; omega⟩
  have hsealed := sealed_word hw
  have hrest := h _ h₀ (hink ▸ hi)
  rw [hs, gap_append_blank hg _ h₀, behindGap_append_blank hg _ h₀, gap_append_of_sealed hsealed,
    behindGap_append_of_sealed hsealed, gap_append_blank hu _ j.succ_pos,
    behindGap_append_blank hu _ j.succ_pos] at hrest
  rw [gap_append_of_sealed hsealed, gap_append_blank (by decide) _ j.succ_pos] at hgap
  rw [behindGap_append_of_sealed hsealed, behindGap_append_blank (by decide) _ j.succ_pos]
  exact hrest hgap hy

theorem apart_of_words (h : (ink s).all isWord = true) : Apart s := by
  intro i h₀ hi hg hy
  have hcomma := (keepsTokens_layOut s).added i h₀ hi hg hy
  have hword := List.all_eq_true.1 h _ (List.mem_of_getElem? hcomma)
  exact absurd hword (by decide)

/-- At the start of the text, behind nothing but white space, a connective stands in front of a
clause or another connective. -/
def Headlong (sql : List Char) : Prop :=
  ∃ w v, Linked (trim sql) w v ∧
    (¬ NoClause (trimStart v) ∨ ∃ w' v', Linked (trimStart v) w' v')

theorem exists_cons_breakClauses (hs : s.head?.any (fun c => !isBlank c) = true) :
    ∃ c x, breakClauses s = c :: x ∧ isBlank c = false := by
  have hb := respaced_breakClauses (.refl NoClause none s) hs
  have hg : gap s 0 = [] := gap_append_zero (g := []) rfl hs
  cases s with
  | nil => exact absurd hs (by decide)
  | cons d s =>
    have hd : isBlank d = false := by simpa using hs
    have hink := hb.ink_left
    rw [ink_cons hd] at hink
    obtain ⟨g, x, hx, hgb, -, -⟩ := exists_cell hink
    have hrel := hb.gaps 0 (Nat.zero_le _)
    rw [hg, hx, gap_cell_zero hgb hd, beforeGap_zero] at hrel
    have hnil : ∀ {n h}, n ≠ 0 → Breaks none n [] [] h h → h = [] := by
      intro n h hn hr
      cases hr with
      | keep => rfl
      | set _ hgate _ => exact absurd hgate (by simp)
      | last hn' _ _ => exact absurd hn' hn
    obtain rfl := hnil (by simp [ink_cons hd]) hrel
    exact ⟨d, x, hx, hd⟩

/-- White space at the start makes no difference, or it makes a connective of the first word. -/
theorem layOut_trimStart (sql : List Char) : layOut sql = layOut (trimStart sql) ∨
    (gap sql 0 ≠ [] ∧ NoClause (trimStart sql) ∧ ∃ w v, Linked (trimStart sql) w v) := by
  cases hs : sql.all isBlank with
  | true =>
    left
    refine layOut_congr (ink_trimStart sql).symm fun i h₀ hi => ?_
    rw [ink_blank hs] at hi
    exact absurd hi (Nat.not_lt_zero i)
  | false =>
    obtain ⟨hhead, ⟨-, h⟩ | ⟨hnone, h⟩⟩ := breakClauses_cases sql hs
    · left
      rw [layOut, h, layOut]
    · by_cases hl : gap sql 0 = [] ∨ ∀ w v, ¬ Linked (breakClauses (trimStart sql)) w v
      · left
        obtain ⟨c, x, hx, hc⟩ := exists_cons_breakClauses hhead
        refine layOut_congr (ink_trimStart sql).symm fun i h₀ _ => ?_
        have hself := connectives_miss (g := []) (x := x) rfl hc (.inl rfl)
        rw [List.nil_append, List.nil_append] at hself
        rw [h, hx, connectives_miss (all_gap sql 0) hc (hx ▸ hl), hself, gap_append_blank (all_gap sql 0) _ h₀]
      · obtain ⟨hg, hl⟩ := not_or.1 hl
        simp only [not_forall, not_not] at hl
        obtain ⟨w, v, hl⟩ := hl
        obtain ⟨z, hz, -⟩ := hl.of_breaks (respaced_breakClauses (.refl _ _ _) hhead)
        exact .inr ⟨hg, hnone, w, z, hz⟩

private theorem connectives_start {z : List Char} (hg : g.all isBlank = true) (hg₀ : g ≠ [])
    (hu : u.all isBlank = true) (hw : Linked (w ++ (u ++ z)) w (u ++ z))
    (hz : gap z 0 = []) :
    connective.substitute (g ++ (w ++ (u ++ z))) =
      indent ++ (w ++ ([' '] ++ connective.substitute z)) := by
  have htrim : trimStart (u ++ z) = z := by
    have h := gap_append_trimStart z
    rw [hz, List.nil_append] at h
    rw [trimStart, List.dropWhile_append_of_pos (by simpa using hu)]
    exact h
  rw [connectives_hit hg hg₀ hw, htrim]
  rfl

private theorem layOut_connective (hg : g.all isBlank = true) (hg₀ : g ≠ []) (hu : u.all isBlank = true)
    (hw : Linked (w ++ u) w u) (hnone : NoClause (w ++ u)) : layOut (g ++ (w ++ u)) = layOut w := by
  obtain ⟨hw₀, hword, -⟩ := hw.shape
  have hnear : Near (w ++ u) (w ++ []) :=
    near_append_word hword (.of_blank hu rfl)
  have hself : breakClauses w = w :=
    breakClauses_of_word hword hw₀ (List.append_nil w ▸ hnone.of_near hnear)
  have hbreak : breakClauses (g ++ (w ++ u)) = g ++ (w ++ (u ++ [])) := by
    have h := (breakClauses_append hg (head_any_word hword hw₀ u)).resolve_left fun h => h.1 hnone
    rw [h.2, breakClauses_word hword (List.getLast?_eq_some_getLast hw₀) hnone, lead, newLines,
      clausesFrom_blank hu]
    rfl
  have hstays : connective.substitute w = w := by
    have h := connectives_word hword []
    rwa [List.append_nil, connectives_blank (g := []) rfl, List.append_nil] at h
  have hink : ink (g ++ (w ++ u)) = w := by
    rw [ink_append, ink_append, ink_blank hg, ink_blank hu, ink_word hword]
    simp
  refine layOut_congr (by rw [hink, ink_word hword]) fun i h₀ hi => ?_
  rw [hink] at hi
  rw [hbreak, connectives_start hg hg₀ hu (by rwa [List.append_nil]) rfl, hself, hstays,
    gap_append_blank (by decide) _ h₀, gap_append_of_lt (by rwa [ink_word hword])]

private theorem connectives_behind (hg : g.all isBlank = true) (hg₀ : g ≠ [])
    (hu : u.all isBlank = true) (hw : Linked (w ++ (u ++ x)) w (u ++ x))
    (hx : x.head?.any (fun c => !isBlank c) = true) (hnone : NoClause x)
    (hwx : NoClause (w ++ (u ++ x))) :
    connective.substitute (breakClauses (g ++ (w ++ (u ++ x)))) =
      indent ++ (w ++ ([' '] ++ connective.substitute (breakClauses x))) := by
  obtain ⟨hw₀, hword, -⟩ := hw.shape
  obtain ⟨c, z, hz, hc⟩ := exists_cons_breakClauses hx
  have hgap : ∀ {t : List Char}, t.head?.any (fun c => !isBlank c) = true → gap (u ++ t) 0 = u :=
    gap_append_zero hu
  have hhead : (breakClauses x).head?.any (fun c => !isBlank c) = true := by simpa [hz] using hc
  have hbreak := (breakClauses_append hg (head_any_word hword hw₀ _)).resolve_left fun h => h.1 hwx
  rw [hbreak.2, breakClauses_word_blank hword hw₀ hu hx hnone hwx]
  refine connectives_start hg hg₀ hu (hw.exchange ?_) (gap_append_zero (g := []) rfl hhead)
  have hblank := hw.blank
  rwa [hgap hx, ← hgap hhead] at hblank

/-- One blank in place of the white space around a connective at the start makes no difference. -/
private theorem layOut_behind (hg : g.all isBlank = true) (hg₀ : g ≠ []) (hu : u.all isBlank = true)
    (hw : Linked (w ++ (u ++ x)) w (u ++ x)) (hx : x.head?.any (fun c => !isBlank c) = true)
    (hnone : NoClause x) (hwx : NoClause (w ++ (u ++ x))) (hwx' : NoClause (w ++ ([' '] ++ x)))
    (hmiss : ∀ w' v', ¬ Linked (breakClauses x) w' v') :
    layOut (g ++ (w ++ (u ++ x))) = layOut (w ++ ([' '] ++ x)) := by
  obtain ⟨hw₀, hword, -⟩ := hw.shape
  obtain ⟨c, z, hz, hc⟩ := exists_cons_breakClauses hx
  have hright : connective.substitute (breakClauses (w ++ ([' '] ++ x))) =
      w ++ ([' '] ++ connective.substitute (breakClauses x)) := by
    have hself := connectives_miss (g := []) (x := z) rfl hc (.inl rfl)
    rw [List.nil_append, List.nil_append] at hself
    rw [breakClauses_word_blank hword hw₀ (by decide) hx hnone hwx', connectives_word hword, hz,
      connectives_miss (by decide) hc (.inr (hz ▸ hmiss)), hself]
  have hink : ink (g ++ (w ++ (u ++ x))) = ink (w ++ ([' '] ++ x)) := by
    simp only [ink_append, ink_blank hg, ink_blank hu, List.nil_append]
    rfl
  refine layOut_congr hink fun i h₀ _ => ?_
  rw [connectives_behind hg hg₀ hu hw hx hnone hwx, hright, gap_append_blank (by decide) _ h₀]

/-- Of two connectives, behind white space and with nothing else after them, only the first is
broken off. -/
private theorem layOut_two_connectives {w' v' : List Char} (hg : g.all isBlank = true) (hg₀ : g ≠ [])
    (hu : u.all isBlank = true) (hw : Linked (w ++ (u ++ (w' ++ v'))) w (u ++ (w' ++ v')))
    (hw' : Linked (w' ++ v') w' v') (hv' : v'.all isBlank = true) (hnone : NoClause (w' ++ v'))
    (hwx : NoClause (w ++ (u ++ (w' ++ v')))) (hwx' : NoClause (w ++ ([' '] ++ w'))) :
    layOut (g ++ (w ++ (u ++ (w' ++ v')))) = layOut (w ++ ([' '] ++ w')) := by
  obtain ⟨hw₀, hword, -⟩ := hw.shape
  obtain ⟨hw₀', hword', -⟩ := hw'.shape
  have hnone' : NoClause w' :=
    List.append_nil w' ▸ hnone.of_near (near_append_word hword' (.of_blank hv' rfl))
  have hhead : w'.head?.any (fun c => !isBlank c) = true := by
    have h := head_any_word hword' hw₀' []
    rwa [List.append_nil] at h
  have hleft : breakClauses (w' ++ v') = w' ++ v' := by
    rw [breakClauses_word hword' (List.getLast?_eq_some_getLast hw₀') hnone, lead, newLines,
      clausesFrom_blank hv']
    simp [onNewLines]
  have hright : connective.substitute (breakClauses (w ++ ([' '] ++ w'))) = w ++ ([' '] ++ w') := by
    rw [breakClauses_word_blank hword hw₀ (by decide) hhead hnone' hwx',
      breakClauses_of_word hword' hw₀' hnone', connectives_word hword,
      connectives_blank_word (by decide) hword' hw₀']
  have hink : ink (g ++ (w ++ (u ++ (w' ++ v')))) = ink (w ++ ([' '] ++ w')) := by
    simp only [ink_append, ink_blank hg, ink_blank hu, ink_blank hv', List.nil_append, List.append_nil]
    rfl
  refine layOut_congr hink fun i h₀ hi => ?_
  rw [hink] at hi
  rw [connectives_behind hg hg₀ hu hw (head_any_word hword' hw₀' v') hnone hwx, hleft, hright,
    connectives_word hword', connectives_blank hv', gap_append_blank (by decide) _ h₀,
    ← List.append_assoc [' '], ← List.append_assoc w, gap_append_of_lt hi]

/-- Trimming a text that begins with something other than white space takes nothing from its start. -/
private theorem exists_trim_of_head (hx : x.head?.any (fun c => !isBlank c) = true) :
    Tight (trim x) ∧ ∃ trail, trail.all isBlank = true ∧ x = trim x ++ trail := by
  obtain ⟨lead, trail, hlead, htrail, he⟩ := exists_trim x
  obtain rfl : lead = [] := by
    cases lead with
    | nil => rfl
    | cons c lead =>
      rw [he] at hx
      simp [List.all_eq_true.1 hlead c List.mem_cons_self] at hx
  rw [List.nil_append] at he
  refine ⟨(trim_eq_nil_or_tight x).resolve_left fun hnil => ?_, trail, htrail, he⟩
  rw [hnil, List.nil_append] at he
  subst he
  cases x with
  | nil => exact absurd hx (by decide)
  | cons c x => simp [List.all_eq_true.1 htrail c List.mem_cons_self] at hx

private theorem matched_trim (hx : x.head?.any (fun c => !isBlank c) = true) : Matched x (trim x) := by
  obtain ⟨-, trail, -, he⟩ := exists_trim_of_head hx
  refine ⟨ink_trim x, fun i hi => ?_, fun hne => ?_⟩
  · conv => lhs; rw [he, gap_append_of_lt (by rwa [ink_trim])]
  · rw [← ink_trim] at hne
    exact absurd (sealed_trim x) hne

private theorem trim_behind_word (hg : g.all isBlank = true) (hw : w.all isWord = true) (hw₀ : w ≠ [])
    (hx : x.head?.any (fun c => !isBlank c) = true) :
    trim (g ++ (w ++ (u ++ x))) = w ++ (u ++ trim x) := by
  obtain ⟨htight, trail, htrail, he⟩ := exists_trim_of_head hx
  have hall : Tight ((w ++ u) ++ trim x) := tight_append (head_any_word hw hw₀ u) htight.2
  rw [List.append_assoc] at hall
  have hsplit := trim_append g trail hall
  rw [trimStart_eq_nil hg, trimEnd_eq_nil htrail, List.append_nil, List.nil_append] at hsplit
  rw [← hsplit]
  conv => lhs; rw [he]
  simp

private theorem exists_of_not_headlong (hg : g.all isBlank = true) (hu : u.all isBlank = true)
    (hw : Linked (w ++ (u ++ x)) w (u ++ x)) (hx : x.head?.any (fun c => !isBlank c) = true)
    (h : ¬ Headlong (g ++ (w ++ (u ++ x)))) :
    NoClause x ∧ ∀ w' v', Linked x w' v' → v'.all isBlank = true := by
  obtain ⟨hw₀, hword, -⟩ := hw.shape
  obtain ⟨htight, -⟩ := exists_trim_of_head hx
  have hmatched := matched_trim hx
  have hstrip : trimStart (u ++ trim x) = trim x := by
    rw [trimStart, List.dropWhile_append_of_pos (by simpa using hu)]
    exact trimStart_eq_self htight.1
  have hlinked : Linked (trim (g ++ (w ++ (u ++ x)))) w (u ++ trim x) := by
    rw [trim_behind_word hg hword hw₀ hx]
    refine hw.exchange ?_
    have hblank := hw.blank
    rwa [gap_append_zero hu hx, ← gap_append_zero hu htight.1] at hblank
  have hlink : ∀ w' v', ¬ Linked (trim x) w' v' := fun w' v' hl =>
    h ⟨w, _, hlinked, .inr ⟨w', v', by rwa [hstrip]⟩⟩
  have hnone : NoClause (trim x) := by
    by_contra hclause
    exact h ⟨w, _, hlinked, .inl (by rwa [hstrip])⟩
  refine ⟨hnone.of_near ⟨hmatched.ink_eq.symm, fun i hi => .inl ?_⟩, fun w' v' hl => ?_⟩
  · exact (hmatched.gaps i (by rwa [ink_trim] at hi)).symm
  · obtain ⟨z, hz, -, hz' | ⟨hv, -⟩⟩ := hmatched.linked hl
    · exact absurd hz' (hlink w' z)
    · exact hv

/-- A text is laid out like one that begins with something other than white space. -/
private theorem exists_straight (hs : s.all isBlank = false) (hapart : Apart s)
    (hstart : gap s 0 = [] ∨ ¬ Headlong s) :
    ∃ t, layOut s = layOut t ∧ t.head?.any (fun c => !isBlank c) = true ∧ Apart t := by
  rcases layOut_trimStart s with h | ⟨hg, hnone, w, v, hl⟩
  · exact ⟨trimStart s, h, (breakClauses_cases s hs).1, hapart.trimStart h⟩
  have hhead := hstart.resolve_left hg
  obtain ⟨hw₀, hword, -⟩ := hl.shape
  have htext := hl.eq
  rw [htext] at hnone hl
  have hsplit : s = gap s 0 ++ (w ++ v) := by rw [← htext, gap_append_trimStart]
  have hgb := all_gap s 0
  generalize gap s 0 = g at hg hsplit hgb
  subst hsplit
  rcases blank_or_cell v with hv | ⟨u, d, x, rfl, hu, hd⟩
  · refine ⟨w, layOut_connective hgb hg hv hl hnone, ?_, apart_of_words (by rwa [ink_word hword])⟩
    have h := head_any_word hword hw₀ []
    rwa [List.append_nil] at h
  have hx : (d :: x).head?.any (fun c => !isBlank c) = true := by simpa using hd
  obtain ⟨hclause, hlinks⟩ := exists_of_not_headlong hgb hu hl hx hhead
  have hu₀ : u ≠ [] := by
    have hblank := hl.blank
    rwa [gap_append_zero hu hx] at hblank
  have hspace : ∀ {y}, Near (d :: x) y → gap y 0 = [] → NoClause (w ++ ([' '] ++ y)) := by
    intro y hy hgap
    exact hnone.of_near (near_append_word hword (near_append_blank hu (by decide)
      (iff_of_false hu₀ (by decide)) hy (gap_append_zero (g := []) rfl hx) hgap))
  by_cases hmiss : ∀ w' v', ¬ Linked (breakClauses (d :: x)) w' v'
  · have hsame := layOut_behind hgb hg hu hl hx hclause hnone
      (hspace (.refl _ _ _) (gap_append_zero (g := []) rfl hx)) hmiss
    exact ⟨_, hsame, head_any_word hword hw₀ _, hapart.regap hgb hword hu hsame⟩
  · simp only [not_forall, not_not] at hmiss
    obtain ⟨w', v', hl'⟩ := hmiss
    obtain ⟨z, hz, -⟩ := hl'.of_breaks (respaced_breakClauses (.refl _ _ _) hx)
    have hzb := hlinks w' z hz
    obtain ⟨hw₀', hword', -⟩ := hz.shape
    have htext := hz.eq
    rw [htext] at hl hz hclause hnone hspace ⊢
    have hgap : gap w' 0 = [] := by
      have h := gap_append_zero (g := []) rfl (head_any_word hword' hw₀' [])
      rwa [List.nil_append, List.append_nil] at h
    have hnear : Near (w' ++ z) w' := by
      have h : Near (w' ++ z) (w' ++ []) := near_append_word hword' (.of_blank hzb rfl)
      rwa [List.append_nil] at h
    refine ⟨_, layOut_two_connectives hgb hg hu hl hz hzb hclause hnone (hspace hnear hgap),
      head_any_word hword hw₀ _, apart_of_words ?_⟩
    rw [ink_append, ink_append, ink_word hword, ink_word hword',
      ink_blank (by decide : [' '].all isBlank = true), List.nil_append, List.all_append, hword, hword']
    rfl

/-- Where no white space comes to stand between a comma and a clause, no connective loses the white
space in front of it to a clause or another connective, and no run of blank lines is left, a
statement that is laid out stays as it is. -/
theorem layOut_layOut {sql : List Char} (hapart : Apart sql)
    (hstart : gap sql 0 = [] ∨ ¬ Headlong sql) (hbreaks : blankRun.occurs (layOut sql) = false) :
    layOut (layOut sql) = layOut sql := by
  cases hs : sql.all isBlank with
  | true =>
    have hnil : layOut sql = [] := by
      rw [layOut, breakClauses_blank hs, connectives_blank hs, trim,
        trimStart_eq_nil (blankRuns_blank hs).1]
      rfl
    rw [hnil]
    rfl
  | false =>
    obtain ⟨t, ht, hhead, hapart⟩ := exists_straight hs hapart hstart
    rw [ht] at hbreaks ⊢
    exact layOut_layOut_of_gap hhead hapart hbreaks

theorem layOut_layOut_list :
    layOut (layOut "SELECT a,b FROM t WHERE x AND y".toList) =
      layOut "SELECT a,b FROM t WHERE x AND y".toList :=
  layOut_layOut (by decide +kernel) (.inl (by decide +kernel)) (by decide +kernel)

/-- The white space behind the comma is what makes a clause of the word behind it. -/
theorem layOut_layOut_comma :
    layOut (layOut "SELECT a,FROM t".toList) ≠ layOut "SELECT a,FROM t".toList := by
  decide +kernel

end ReportMigration.Sql.Layout
