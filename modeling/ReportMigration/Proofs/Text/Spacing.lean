import ReportMigration.Proofs.Text.Trim

/-!
# White space between the characters of a text

A text is its ink, the characters other than white space, and its gaps: the white space in front of
each of them and behind the last. Texts with the same ink are compared gap by gap.
-/

namespace ReportMigration.Text

/-- The characters other than white space. -/
def ink (text : List Char) : List Char :=
  text.filter fun c => !isBlank c

/-- The white space in front of the character with a number among those other than white space, or
behind the last of them. -/
def gap : List Char → Nat → List Char
  | text, 0 => text.takeWhile isBlank
  | text, i + 1 => gap (text.dropWhile isBlank).tail i

def behindGap : List Char → Nat → List Char
  | text, 0 => text.dropWhile isBlank
  | text, i + 1 => behindGap (text.dropWhile isBlank).tail i

variable {c : Char} {g h x y z : List Char} {i : Nat}

theorem blank_or_cell (text : List Char) : text.all isBlank = true ∨
    ∃ g c rest, text = g ++ c :: rest ∧ g.all isBlank = true ∧ isBlank c = false := by
  cases hd : text.dropWhile isBlank with
  | nil =>
    left
    have ht : text.takeWhile isBlank = text := by
      simpa [hd] using List.takeWhile_append_dropWhile (p := isBlank) (l := text)
    rw [← ht]
    exact List.all_takeWhile
  | cons c rest =>
    refine .inr ⟨text.takeWhile isBlank, c, rest, ?_, List.all_takeWhile, ?_⟩
    · rw [← hd, List.takeWhile_append_dropWhile]
    · have hc := List.head?_dropWhile_not isBlank text
      rw [hd] at hc
      simpa using hc

@[simp] theorem ink_nil : ink [] = [] := rfl

@[simp] theorem ink_append (x y : List Char) : ink (x ++ y) = ink x ++ ink y :=
  List.filter_append x y

theorem ink_cons (hc : isBlank c = false) (x : List Char) : ink (c :: x) = c :: ink x := by
  simp [ink, hc]

theorem ink_blank (hg : g.all isBlank = true) : ink g = [] := by
  simpa [ink] using hg

theorem ink_eq_nil : ink x = [] ↔ x.all isBlank = true := by
  simp [ink]

theorem ink_cell (hg : g.all isBlank = true) (hc : isBlank c = false) (x : List Char) :
    ink (g ++ c :: x) = c :: ink x := by
  rw [ink_append, ink_blank hg, ink_cons hc, List.nil_append]

theorem takeWhile_cell (hg : g.all isBlank = true) (hc : isBlank c = false) (x : List Char) :
    (g ++ c :: x).takeWhile isBlank = g := by
  rw [List.takeWhile_append_of_pos (by simpa using hg), List.takeWhile_cons_of_neg (by simp [hc]),
    List.append_nil]

theorem dropWhile_cell (hg : g.all isBlank = true) (hc : isBlank c = false) (x : List Char) :
    (g ++ c :: x).dropWhile isBlank = c :: x := by
  rw [List.dropWhile_append_of_pos (by simpa using hg), List.dropWhile_cons_of_neg (by simp [hc])]

theorem gap_zero (x : List Char) : gap x 0 = x.takeWhile isBlank := rfl

theorem gap_cell_zero (hg : g.all isBlank = true) (hc : isBlank c = false) (x : List Char) :
    gap (g ++ c :: x) 0 = g :=
  takeWhile_cell hg hc x

theorem gap_append_zero (hg : g.all isBlank = true)
    (hx : x.head?.any (fun c => !isBlank c) = true) : gap (g ++ x) 0 = g := by
  cases x with
  | nil => exact absurd hx (by decide)
  | cons c x => exact gap_cell_zero hg (by simpa using hx) x

theorem gap_cell_succ (hg : g.all isBlank = true) (hc : isBlank c = false) (x : List Char)
    (i : Nat) : gap (g ++ c :: x) (i + 1) = gap x i := by
  rw [gap, dropWhile_cell hg hc, List.tail_cons]

theorem gap_blank_zero (hg : g.all isBlank = true) : gap g 0 = g :=
  List.takeWhile_eq_self_iff.2 (by simpa using hg)

@[simp] theorem gap_nil (i : Nat) : gap [] i = [] := by
  induction i with
  | zero => rfl
  | succ i ih => exact ih

theorem gap_blank_succ (hg : g.all isBlank = true) (i : Nat) : gap g (i + 1) = [] := by
  rw [gap, show g.dropWhile isBlank = [] from trimStart_eq_nil hg, List.tail_nil, gap_nil]

theorem behindGap_cell_zero (hg : g.all isBlank = true) (hc : isBlank c = false) (x : List Char) :
    behindGap (g ++ c :: x) 0 = c :: x :=
  dropWhile_cell hg hc x

theorem behindGap_cell_succ (hg : g.all isBlank = true) (hc : isBlank c = false) (x : List Char)
    (i : Nat) : behindGap (g ++ c :: x) (i + 1) = behindGap x i := by
  rw [behindGap, dropWhile_cell hg hc, List.tail_cons]

theorem all_gap (x : List Char) (i : Nat) : (gap x i).all isBlank = true := by
  induction i generalizing x with
  | zero => exact List.all_takeWhile
  | succ i ih => exact ih _

theorem exists_cell (hx : ink x = c :: y) : ∃ g rest, x = g ++ c :: rest ∧ g.all isBlank = true ∧
    isBlank c = false ∧ ink rest = y := by
  rcases blank_or_cell x with hb | ⟨g, d, rest, rfl, hg, hd⟩
  · simp [ink_blank hb] at hx
  · rw [ink_cell hg hd] at hx
    obtain ⟨rfl, rfl⟩ := List.cons.inj hx
    exact ⟨g, rest, rfl, hg, hd, rfl⟩

/-- What holds of white space, and of a cell in front of a text if it holds of that text, holds of
every text. -/
@[elab_as_elim]
theorem cell_induction {P : List Char → Prop} (blank : ∀ g, g.all isBlank = true → P g)
    (cell : ∀ g c x, g.all isBlank = true → isBlank c = false → P x → P (g ++ c :: x))
    (text : List Char) : P text := by
  induction hn : text.length using Nat.strongRecOn generalizing text with
  | ind n ih =>
    subst hn
    rcases blank_or_cell text with hb | ⟨g, c, rest, rfl, hg, hc⟩
    · exact blank _ hb
    · refine cell g c rest hg hc (ih _ ?_ rest rfl)
      simp only [List.length_append, List.length_cons]
      omega

theorem gap_append_trimStart (x : List Char) : gap x 0 ++ trimStart x = x :=
  List.takeWhile_append_dropWhile

@[simp] theorem ink_trimStart (x : List Char) : ink (trimStart x) = ink x := by
  conv => rhs; rw [← gap_append_trimStart x, ink_append, ink_blank (all_gap x 0), List.nil_append]

theorem gap_regap_zero (hg : g.all isBlank = true) (x : List Char) : gap (g ++ trimStart x) 0 = g := by
  rcases blank_or_cell x with hx | ⟨h, c, x, rfl, hh, hc⟩
  · rw [trimStart_eq_nil hx, List.append_nil, gap_blank_zero hg]
  · rw [trimStart, dropWhile_cell hh hc, gap_cell_zero hg hc]

theorem gap_regap_succ (hg : g.all isBlank = true) (x : List Char) (i : Nat) :
    gap (g ++ trimStart x) (i + 1) = gap x (i + 1) := by
  rcases blank_or_cell x with hx | ⟨h, c, x, rfl, hh, hc⟩
  · rw [trimStart_eq_nil hx, List.append_nil, gap_blank_succ hg, gap_blank_succ hx]
  · rw [trimStart, dropWhile_cell hh hc, gap_cell_succ hg hc, gap_cell_succ hh hc]

@[simp] theorem gap_trimStart_zero (x : List Char) : gap (trimStart x) 0 = [] :=
  gap_regap_zero (g := []) rfl x

@[simp] theorem gap_trimStart_succ (x : List Char) (i : Nat) :
    gap (trimStart x) (i + 1) = gap x (i + 1) :=
  gap_regap_succ (g := []) rfl x i

@[simp] theorem trimStart_trimStart (x : List Char) : trimStart (trimStart x) = trimStart x := by
  have h := gap_append_trimStart (trimStart x)
  rwa [gap_trimStart_zero] at h

theorem exists_front (x : List Char) (hi : i < (ink x).length) : ∃ front c, (ink x)[i]? = some c ∧
    x = front ++ c :: (gap x (i + 1) ++ behindGap x (i + 1)) := by
  induction x using cell_induction generalizing i with
  | blank g hg =>
    rw [ink_blank hg] at hi
    exact absurd hi (Nat.not_lt_zero i)
  | cell g c x hg hc ih =>
    rw [gap_cell_succ hg hc, behindGap_cell_succ hg hc, ink_cell hg hc]
    cases i with
    | zero =>
      exact ⟨g, c, rfl, by rw [gap_zero, behindGap, List.takeWhile_append_dropWhile]⟩
    | succ i =>
      rw [ink_cell hg hc, List.length_cons] at hi
      obtain ⟨front, d, hd, he⟩ := ih (Nat.lt_of_succ_lt_succ hi)
      refine ⟨g ++ c :: front, d, hd, ?_⟩
      rw [List.append_assoc, List.cons_append, ← he]

theorem eq_of_gap_eq (hi : ink x = ink y) (hg : ∀ i ≤ (ink x).length, gap x i = gap y i) : x = y := by
  induction hn : ink x generalizing x y with
  | nil =>
    have hx := ink_eq_nil.1 hn
    have hy := ink_eq_nil.1 (hi.symm.trans hn)
    rw [← gap_blank_zero hx, ← gap_blank_zero hy]
    exact hg 0 (Nat.zero_le _)
  | cons c n ih =>
    obtain ⟨g, x, rfl, hg₁, hc, hx⟩ := exists_cell hn
    obtain ⟨h, y, rfl, hg₂, -, hy⟩ := exists_cell (hi.symm.trans hn)
    have hzero := hg 0 (Nat.zero_le _)
    rw [gap_cell_zero hg₁ hc, gap_cell_zero hg₂ hc] at hzero
    have hrest : x = y := by
      refine ih (hx.trans hy.symm) (fun i hle => ?_) hx
      have hsucc := hg (i + 1) (by rw [ink_cell hg₁ hc]; simpa using hle)
      rwa [gap_cell_succ hg₁ hc, gap_cell_succ hg₂ hc] at hsucc
    rw [hzero, hrest]

theorem gap_append_of_lt (hi : i < (ink x).length) : gap (x ++ y) i = gap x i := by
  induction x using cell_induction generalizing i with
  | blank g hg =>
    rw [ink_blank hg] at hi
    exact absurd hi (Nat.not_lt_zero i)
  | cell g c x hg hc ih =>
    rw [List.append_assoc, List.cons_append]
    rw [ink_cell hg hc, List.length_cons] at hi
    cases i with
    | zero => rw [gap_cell_zero hg hc, gap_cell_zero hg hc]
    | succ i =>
      rw [gap_cell_succ hg hc, gap_cell_succ hg hc]
      exact ih (Nat.lt_of_succ_lt_succ hi)

theorem gap_append_length (x y : List Char) :
    gap (x ++ y) (ink x).length = gap x (ink x).length ++ gap y 0 := by
  induction x using cell_induction with
  | blank g hg =>
    rw [ink_blank hg, List.length_nil, gap_blank_zero hg, gap_zero, gap_zero,
      List.takeWhile_append_of_pos (by simpa using hg)]
  | cell g c x hg hc ih =>
    rw [List.append_assoc, List.cons_append, ink_cell hg hc, List.length_cons,
      gap_cell_succ hg hc, gap_cell_succ hg hc, ih]

theorem gap_append_succ (x y : List Char) (j : Nat) :
    gap (x ++ y) ((ink x).length + (j + 1)) = gap y (j + 1) := by
  induction x using cell_induction with
  | blank g hg =>
    rw [ink_blank hg, List.length_nil, Nat.zero_add, gap, gap,
      List.dropWhile_append_of_pos (by simpa using hg)]
  | cell g c x hg hc ih =>
    rw [List.append_assoc, List.cons_append, ink_cell hg hc, List.length_cons, Nat.add_right_comm,
      gap_cell_succ hg hc, ih]

theorem gap_append_blank (hg : g.all isBlank = true) (x : List Char) (hi : 0 < i) :
    gap (g ++ x) i = gap x i := by
  obtain ⟨j, rfl⟩ : ∃ j, i = j + 1 := ⟨i - 1, by omega⟩
  have h := gap_append_succ g x j
  rwa [ink_blank hg, List.length_nil, Nat.zero_add] at h

theorem behindGap_append_blank (hg : g.all isBlank = true) (x : List Char) (hi : 0 < i) :
    behindGap (g ++ x) i = behindGap x i := by
  obtain ⟨j, rfl⟩ : ∃ j, i = j + 1 := ⟨i - 1, by omega⟩
  rw [behindGap, behindGap, List.dropWhile_append_of_pos (by simpa using hg)]

/-- The text does not end with white space. -/
def Sealed (x : List Char) : Prop :=
  gap x (ink x).length = []

theorem sealed_nil : Sealed [] := rfl

theorem sealed_cell (hg : g.all isBlank = true) (hc : isBlank c = false) :
    Sealed (g ++ c :: x) ↔ Sealed x := by
  rw [Sealed, ink_cell hg hc, List.length_cons, gap_cell_succ hg hc, Sealed]

theorem Sealed.eq_nil (h : Sealed g) (hg : g.all isBlank = true) : g = [] := by
  rwa [Sealed, ink_blank hg, List.length_nil, gap_blank_zero hg] at h

theorem sealed_of_getLast (h : x.getLast?.any (fun c => !isBlank c) = true) : Sealed x := by
  induction x using cell_induction with
  | blank g hg =>
    obtain ⟨c, hl, hc⟩ := (Option.any_eq_true _ _).1 h
    simp [List.all_eq_true.1 hg c (List.mem_of_getLast? hl)] at hc
  | cell g c x hg hc ih =>
    rw [sealed_cell hg hc]
    cases x with
    | nil => exact sealed_nil
    | cons d x =>
      refine ih ?_
      rwa [List.getLast?_append, List.getLast?_cons_cons, List.getLast?_eq_some_getLast (by simp),
        Option.some_or] at h

theorem gap_append_of_sealed (hx : Sealed x) (y : List Char) (j : Nat) :
    gap (x ++ y) ((ink x).length + j) = gap y j := by
  cases j with
  | zero =>
    rw [Nat.add_zero, gap_append_length]
    exact (congrArg (· ++ _) hx).trans (List.nil_append _)
  | succ j => exact gap_append_succ x y j

theorem behindGap_append_of_sealed (hx : Sealed x) (y : List Char) (j : Nat) :
    behindGap (x ++ y) ((ink x).length + j) = behindGap y j := by
  induction x using cell_induction with
  | blank g hg =>
    simp [hx.eq_nil hg]
  | cell g c x hg hc ih =>
    rw [List.append_assoc, List.cons_append, ink_cell hg hc, List.length_cons, Nat.add_right_comm,
      behindGap_cell_succ hg hc, ih ((sealed_cell hg hc).1 hx)]

theorem gap_subset (x : List Char) (i : Nat) : gap x i ⊆ x := by
  induction i generalizing x with
  | zero => exact (List.takeWhile_prefix isBlank).subset
  | succ i ih =>
    exact fun c hc => (List.dropWhile_suffix isBlank).subset (List.tail_subset _ (ih _ hc))

/-- White space goes no further than the next other character. -/
theorem infix_cell {run : List Char} (hr : run.all isBlank = true) (hc : isBlank c = false)
    (h : run <:+: g ++ c :: x) : run <:+: g ∨ run <:+: x := by
  have hstart : ∀ {g}, run <+: g ++ c :: x → run <+: g := by
    rintro g ⟨back, he⟩
    rcases List.append_eq_append_iff.1 he with ⟨between, rfl, -⟩ | ⟨between, rfl, hx⟩
    · exact ⟨between, rfl⟩
    · cases between with
      | nil => exact ⟨[], by simp⟩
      | cons d between =>
        obtain ⟨rfl, -⟩ := List.cons.inj hx
        simp [hc] at hr
  induction g with
  | nil =>
    rcases List.infix_cons_iff.1 h with h | h
    · exact .inl (hstart h).isInfix
    · exact .inr h
  | cons d g ih =>
    rcases List.infix_cons_iff.1 h with h | h
    · exact .inl (hstart (g := d :: g) h).isInfix
    · exact (ih h).imp_left List.infix_cons

theorem infix_iff_gap {run : List Char} (hr : run.all isBlank = true) (text : List Char) :
    run <:+: text ↔ ∃ i ≤ (ink text).length, run <:+: gap text i := by
  induction text using cell_induction with
  | blank g hg =>
    simp only [ink_blank hg, List.length_nil, Nat.le_zero, exists_eq_left, gap_blank_zero hg]
  | cell g c x hg hc ih =>
    rw [ink_cell hg hc, List.length_cons]
    constructor
    · intro h
      rcases infix_cell hr hc h with h | h
      · exact ⟨0, Nat.zero_le _, by rwa [gap_cell_zero hg hc]⟩
      · obtain ⟨i, hi, h⟩ := ih.1 h
        exact ⟨i + 1, Nat.succ_le_succ hi, by rwa [gap_cell_succ hg hc]⟩
    · rintro ⟨i, hi, h⟩
      cases i with
      | zero =>
        rw [gap_cell_zero hg hc] at h
        exact h.trans (List.prefix_append _ _).isInfix
      | succ i =>
        rw [gap_cell_succ hg hc] at h
        have hx := ih.2 ⟨i, Nat.le_of_succ_le_succ hi, h⟩
        exact hx.trans ((List.suffix_cons _ _).trans (List.suffix_append _ _)).isInfix

/-- A change of white space that goes no further than the next other character. -/
structure Gapwise (f : List Char → List Char) : Prop where
  nil : f [] = []
  blank : ∀ {g}, g.all isBlank = true → (f g).all isBlank = true
  cell : ∀ {c}, isBlank c = false → ∀ g x, f (g ++ c :: x) = f g ++ c :: f x

namespace Gapwise

variable {f : List Char → List Char}

theorem ink (h : Gapwise f) (x : List Char) : ink (f x) = Text.ink x := by
  induction x using cell_induction with
  | blank g hg => rw [ink_blank hg, ink_blank (h.blank hg)]
  | cell g c x hg hc ih => rw [h.cell hc, ink_cell (h.blank hg) hc, ink_cell hg hc, ih]

theorem gap (h : Gapwise f) (x : List Char) (i : Nat) : gap (f x) i = f (gap x i) := by
  induction x using cell_induction generalizing i with
  | blank g hg =>
    cases i with
    | zero => rw [gap_blank_zero hg, gap_blank_zero (h.blank hg)]
    | succ i => rw [gap_blank_succ hg, gap_blank_succ (h.blank hg), h.nil]
  | cell g c x hg hc ih =>
    rw [h.cell hc]
    cases i with
    | zero => rw [gap_cell_zero hg hc, gap_cell_zero (h.blank hg) hc]
    | succ i => rw [gap_cell_succ hg hc, gap_cell_succ (h.blank hg) hc, ih]

end Gapwise

@[simp] theorem ink_trim (x : List Char) : ink (trim x) = ink x := by
  obtain ⟨g, h, hg, hh, he⟩ := exists_trim x
  conv => rhs; rw [he, ink_append, ink_append, ink_blank hg, ink_blank hh]
  simp

theorem gap_trim (x : List Char) (h₀ : 0 < i) (hi : i < (ink x).length) :
    gap (trim x) i = gap x i := by
  obtain ⟨g, h, hg, -, he⟩ := exists_trim x
  obtain ⟨j, rfl⟩ : ∃ j, i = j + 1 := ⟨i - 1, by omega⟩
  have hright := gap_append_succ g (trim x ++ h) j
  rw [ink_blank hg, List.length_nil, Nat.zero_add, ← he] at hright
  rw [hright]
  exact (gap_append_of_lt (by rwa [ink_trim])).symm

theorem sealed_trim (x : List Char) : Sealed (trim x) := by
  rcases trim_eq_nil_or_tight x with h | h
  · rw [h]
    exact sealed_nil
  · exact sealed_of_getLast h.2

theorem gap_trim_zero (x : List Char) : gap (trim x) 0 = [] := by
  rcases trim_eq_nil_or_tight x with h | h
  · rw [h, gap_nil]
  · exact gap_append_zero (g := []) rfl h.1

end ReportMigration.Text
