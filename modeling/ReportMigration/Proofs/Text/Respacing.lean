import ReportMigration.Proofs.Text.Spacing

/-!
# Texts that differ in their white space

Two texts are alike when they have the same ink and white space in the same gaps, except where a
comma leaves it open. What a change does to two such texts at once is said gap by gap: `Respaced`
relates the gaps of both before the change to their gaps after it.
-/

namespace ReportMigration.Text

variable {free : List Char → Prop} {b : Option Char} {c : Char} {g g' h h' k x x' y y' z : List Char}
  {i : Nat}

/-- The character in front of a gap of a text behind another character. -/
def beforeGap (b : Option Char) (x : List Char) (i : Nat) : Option Char :=
  ((ink x).take i).getLast?.or b

@[simp] theorem beforeGap_zero (b : Option Char) (x : List Char) : beforeGap b x 0 = b := by
  simp [beforeGap]

theorem beforeGap_cell_succ (hg : g.all isBlank = true) (hc : isBlank c = false) (x : List Char)
    (i : Nat) : beforeGap b (g ++ c :: x) (i + 1) = beforeGap (some c) x i := by
  rw [beforeGap, beforeGap, ink_cell hg hc, List.take_succ_cons, List.getLast?_cons]
  cases ((ink x).take i).getLast? <;> rfl

/-- The last character other than white space, in a text behind another character. -/
def lastInk (b : Option Char) (x : List Char) : Option Char :=
  (ink x).getLast?.or b

theorem lastInk_cell (hg : g.all isBlank = true) (hc : isBlank c = false) (x : List Char) :
    lastInk b (g ++ c :: x) = lastInk (some c) x := by
  rw [lastInk, lastInk, ink_cell hg hc, List.getLast?_cons]
  cases (ink x).getLast? <;> rfl

theorem beforeGap_append_of_le (hi : i ≤ (ink x).length) :
    beforeGap b (x ++ y) i = beforeGap b x i := by
  rw [beforeGap, beforeGap, ink_append, List.take_append_of_le_length hi]

theorem beforeGap_append (b : Option Char) (x y : List Char) (j : Nat) :
    beforeGap b (x ++ y) ((ink x).length + j) = beforeGap (lastInk b x) y j := by
  rw [beforeGap, beforeGap, lastInk, ink_append, List.take_length_add_append, List.getLast?_append,
    Option.or_assoc]

theorem beforeGap_length (b : Option Char) (x : List Char) :
    beforeGap b x (ink x).length = lastInk b x := by
  rw [beforeGap, List.take_length, lastInk]

/-- The texts have the same ink and gaps at the same places, where white space behind a comma is
free before certain texts. White space behind all ink does not count. -/
structure Alike (free : List Char → Prop) (b : Option Char) (x y : List Char) : Prop where
  ink_eq : ink y = ink x
  gaps : ∀ i < (ink x).length, (gap x i = [] ↔ gap y i = []) ∨
    (beforeGap b x i = some ',' ∧ free (behindGap x i))

namespace Alike

theorem refl (free : List Char → Prop) (b : Option Char) (x : List Char) : Alike free b x x :=
  ⟨rfl, fun _ _ => .inl Iff.rfl⟩

theorem blank (h : Alike free b x y) (hx : x.all isBlank = true) : y.all isBlank = true := by
  rw [← ink_eq_nil, h.ink_eq, ink_blank hx]

theorem of_blank (hx : x.all isBlank = true) (hy : y.all isBlank = true) : Alike free b x y := by
  refine ⟨by rw [ink_blank hx, ink_blank hy], fun i hi => ?_⟩
  rw [ink_blank hx] at hi
  exact absurd hi (Nat.not_lt_zero i)

theorem exists_cell (h : Alike free b (g ++ c :: x) y) (hg : g.all isBlank = true)
    (hc : isBlank c = false) : ∃ k z, y = k ++ c :: z ∧ k.all isBlank = true ∧
      ((g = [] ↔ k = []) ∨ (b = some ',' ∧ free (c :: x))) ∧ Alike free (some c) x z := by
  obtain ⟨k, z, rfl, hk, -, hz⟩ := Text.exists_cell (h.ink_eq.trans (ink_cell hg hc x))
  have hlen : (ink (g ++ c :: x)).length = (ink x).length + 1 := by
    rw [ink_cell hg hc, List.length_cons]
  refine ⟨k, z, rfl, hk, ?_, hz, fun i hi => ?_⟩
  · have hzero := h.gaps 0 (by omega)
    rwa [gap_cell_zero hg hc, gap_cell_zero hk hc, beforeGap_zero, behindGap_cell_zero hg hc] at hzero
  · have hsucc := h.gaps (i + 1) (by omega)
    rwa [gap_cell_succ hg hc, gap_cell_succ hk hc, beforeGap_cell_succ hg hc,
      behindGap_cell_succ hg hc] at hsucc

theorem cell (h : Alike free (some c) x y) (hg : g.all isBlank = true) (hk : k.all isBlank = true)
    (hc : isBlank c = false) (hgap : (g = [] ↔ k = []) ∨ (b = some ',' ∧ free (c :: x))) :
    Alike free b (g ++ c :: x) (k ++ c :: y) := by
  refine ⟨by rw [ink_cell hg hc, ink_cell hk hc, h.ink_eq], fun i hi => ?_⟩
  cases i with
  | zero => rwa [gap_cell_zero hg hc, gap_cell_zero hk hc, beforeGap_zero, behindGap_cell_zero hg hc]
  | succ i =>
    rw [gap_cell_succ hg hc, gap_cell_succ hk hc, beforeGap_cell_succ hg hc,
      behindGap_cell_succ hg hc]
    exact h.gaps i (by rw [ink_cell hg hc] at hi; exact Nat.lt_of_succ_lt_succ hi)

theorem mono {free' : List Char → Prop} (h : Alike free b x y) (hf : ∀ t, free t → free' t) :
    Alike free' b x y :=
  ⟨h.ink_eq, fun i hi => (h.gaps i hi).imp_right fun ⟨hb, ht⟩ => ⟨hb, hf _ ht⟩⟩

theorem behind (h : Alike free b (x ++ z) (y ++ z')) (hi : ink y = ink x) (hx : Sealed x)
    (hy : Sealed y) : Alike free (lastInk b x) z z' := by
  have hink := h.ink_eq
  rw [ink_append, ink_append, hi] at hink
  refine ⟨List.append_cancel_left hink, fun i hlt => ?_⟩
  have hgap := h.gaps ((ink x).length + i) (by rw [ink_append, List.length_append]; omega)
  have hright := gap_append_of_sealed hy z' i
  rw [hi] at hright
  rwa [gap_append_of_sealed hx, hright, beforeGap_append, behindGap_append_of_sealed hx] at hgap

theorem of_ne_comma {b' : Option Char} (h : Alike free b x y) (hb : b ≠ some ',') :
    Alike free b' x y := by
  refine ⟨h.ink_eq, fun i hi => (h.gaps i hi).imp_right fun ⟨hcomma, ht⟩ => ⟨?_, ht⟩⟩
  unfold beforeGap at hcomma ⊢
  cases hl : ((ink x).take i).getLast? with
  | none => exact absurd (by simpa [hl] using hcomma) hb
  | some c => simpa [hl] using hcomma

theorem symm (h : Alike (fun _ => True) b x y) : Alike (fun _ => True) b y x := by
  refine ⟨h.ink_eq.symm, fun i hi => ?_⟩
  have hb : beforeGap b y i = beforeGap b x i := by rw [beforeGap, beforeGap, h.ink_eq]
  rw [hb]
  exact (h.gaps i (h.ink_eq ▸ hi)).imp_left Iff.symm

end Alike

/-- Two texts with the same ink become two texts with that ink, and each gap of the four is in the
relation with the character in front of it and the number of characters behind it. -/
structure Respaced
    (rel : Option Char → Nat → List Char → List Char → List Char → List Char → Prop)
    (b : Option Char) (x y x' y' : List Char) : Prop where
  ink_eq : ink y = ink x
  ink_left : ink x' = ink x
  ink_right : ink y' = ink x
  gaps : ∀ i ≤ (ink x).length,
    rel (beforeGap b x i) ((ink x).length - i) (gap x i) (gap y i) (gap x' i) (gap y' i)

namespace Respaced

variable {rel : Option Char → Nat → List Char → List Char → List Char → List Char → Prop}

theorem blank (hg : g.all isBlank = true) (hh : h.all isBlank = true) (hg' : g'.all isBlank = true)
    (hh' : h'.all isBlank = true) (hr : rel b 0 g h g' h') : Respaced rel b g h g' h' := by
  refine ⟨by rw [ink_blank hg, ink_blank hh], by rw [ink_blank hg, ink_blank hg'],
    by rw [ink_blank hg, ink_blank hh'], fun i hi => ?_⟩
  rw [ink_blank hg] at hi ⊢
  obtain rfl : i = 0 := Nat.le_zero.1 hi
  rwa [beforeGap_zero, gap_blank_zero hg, gap_blank_zero hh, gap_blank_zero hg', gap_blank_zero hh']

theorem cell (ht : Respaced rel (some c) x y x' y') (hc : isBlank c = false)
    (hg : g.all isBlank = true) (hh : h.all isBlank = true) (hg' : g'.all isBlank = true)
    (hh' : h'.all isBlank = true) (hr : rel b ((ink x).length + 1) g h g' h') :
    Respaced rel b (g ++ c :: x) (h ++ c :: y) (g' ++ c :: x') (h' ++ c :: y') := by
  refine ⟨by rw [ink_cell hg hc, ink_cell hh hc, ht.ink_eq],
    by rw [ink_cell hg hc, ink_cell hg' hc, ht.ink_left],
    by rw [ink_cell hg hc, ink_cell hh' hc, ht.ink_right], fun i hi => ?_⟩
  rw [ink_cell hg hc, List.length_cons] at hi ⊢
  cases i with
  | zero =>
    rwa [beforeGap_zero, gap_cell_zero hg hc, gap_cell_zero hh hc, gap_cell_zero hg' hc,
      gap_cell_zero hh' hc]
  | succ i =>
    rw [beforeGap_cell_succ hg hc, gap_cell_succ hg hc, gap_cell_succ hh hc,
      gap_cell_succ hg' hc, gap_cell_succ hh' hc, Nat.add_sub_add_right]
    exact ht.gaps i (Nat.le_of_succ_le_succ hi)

theorem keep (hkeep : ∀ b n g h, rel b n g h g h) (hi : ink y = ink x) : Respaced rel b x y x y :=
  ⟨hi, rfl, hi, fun _ _ => hkeep _ _ _ _⟩

theorem regap (hr : Respaced rel b x y x' y') (hg : g.all isBlank = true) (hh : h.all isBlank = true)
    (hg' : g'.all isBlank = true) (hh' : h'.all isBlank = true)
    (hrel : rel b (ink x).length g h g' h') :
    Respaced rel b (g ++ trimStart x) (h ++ trimStart y) (g' ++ trimStart x')
      (h' ++ trimStart y') := by
  have hink : ∀ {k t : List Char}, k.all isBlank = true → ink (k ++ trimStart t) = ink t := by
    intro k t hk
    rw [ink_append, ink_blank hk, List.nil_append, ink_trimStart]
  refine ⟨by rw [hink hg, hink hh, hr.ink_eq], by rw [hink hg, hink hg', hr.ink_left],
    by rw [hink hg, hink hh', hr.ink_right], fun i hi => ?_⟩
  have hbefore : beforeGap b (g ++ trimStart x) i = beforeGap b x i := by
    rw [beforeGap, beforeGap, hink hg]
  rw [hbefore, hink hg]
  rw [hink hg] at hi
  cases i with
  | zero =>
    rwa [beforeGap_zero, gap_regap_zero hg, gap_regap_zero hh, gap_regap_zero hg', gap_regap_zero hh']
  | succ i =>
    rw [gap_regap_succ hg, gap_regap_succ hh, gap_regap_succ hg', gap_regap_succ hh']
    exact hr.gaps (i + 1) hi

theorem append (hmono : ∀ {b n k g h g' h'}, rel b (n + 1) g h g' h' → rel b (n + 1 + k) g h g' h')
    (hx : Respaced rel b x y x' y') {w z' w' : List Char}
    (hz : Respaced rel (lastInk b x) z w z' w')
    (hseam : rel (lastInk b x) (ink z).length (gap x (ink x).length ++ gap z 0)
      (gap y (ink x).length ++ gap w 0) (gap x' (ink x).length ++ gap z' 0)
      (gap y' (ink x).length ++ gap w' 0)) :
    Respaced rel b (x ++ z) (y ++ w) (x' ++ z') (y' ++ w') := by
  refine ⟨by rw [ink_append, ink_append, hx.ink_eq, hz.ink_eq],
    by rw [ink_append, ink_append, hx.ink_left, hz.ink_left],
    by rw [ink_append, ink_append, hx.ink_right, hz.ink_right], fun i hi => ?_⟩
  have hy := hx.ink_eq
  have hx' := hx.ink_left
  have hy' := hx.ink_right
  rw [ink_append, List.length_append] at hi ⊢
  rcases Nat.lt_trichotomy i (ink x).length with hlt | rfl | hgt
  · obtain ⟨n, hn⟩ : ∃ n, (ink x).length - i = n + 1 := ⟨(ink x).length - i - 1, by omega⟩
    have hr := hx.gaps i hlt.le
    rw [beforeGap_append_of_le hlt.le, gap_append_of_lt hlt, gap_append_of_lt (hy ▸ hlt),
      gap_append_of_lt (hx' ▸ hlt), gap_append_of_lt (hy' ▸ hlt),
      show (ink x).length + (ink z).length - i = n + 1 + (ink z).length by omega]
    rw [hn] at hr
    exact hmono hr
  · rw [beforeGap_append_of_le le_rfl, beforeGap_length, gap_append_length, Nat.add_sub_cancel_left]
    have h₁ := gap_append_length y w
    have h₂ := gap_append_length x' z'
    have h₃ := gap_append_length y' w'
    rw [hy] at h₁
    rw [hx'] at h₂
    rw [hy'] at h₃
    rw [h₁, h₂, h₃]
    exact hseam
  · obtain ⟨j, rfl⟩ : ∃ j, i = (ink x).length + (j + 1) := ⟨i - (ink x).length - 1, by omega⟩
    have h₁ := gap_append_succ y w j
    have h₂ := gap_append_succ x' z' j
    have h₃ := gap_append_succ y' w' j
    rw [hy] at h₁
    rw [hx'] at h₂
    rw [hy'] at h₃
    rw [beforeGap_append, gap_append_succ, h₁, h₂, h₃, Nat.add_sub_add_left]
    exact hz.gaps (j + 1) (by omega)

theorem prepend (hkeep : ∀ b n g h, rel b n g h g h) {u v : List Char} (hi : ink v = ink u)
    (hu : Sealed u) (hv : Sealed v) (hr : Respaced rel (lastInk b u) x y x' y') :
    Respaced rel b (u ++ x) (v ++ y) (u ++ x') (v ++ y') := by
  induction u using cell_induction generalizing b v with
  | blank g hg =>
    obtain rfl := hu.eq_nil hg
    obtain rfl := hv.eq_nil (ink_eq_nil.1 hi)
    simpa [lastInk] using hr
  | cell g c u hg hc ih =>
    rw [ink_cell hg hc] at hi
    obtain ⟨h, v, rfl, hh, -, hi⟩ := exists_cell hi
    rw [lastInk_cell hg hc] at hr
    simp only [List.append_assoc, List.cons_append]
    exact (ih hi ((sealed_cell hg hc).1 hu) ((sealed_cell hh hc).1 hv) hr).cell hc hg hh hg hh
      (hkeep _ _ _ _)

end Respaced

end ReportMigration.Text
