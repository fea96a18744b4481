import ReportMigration.Proofs.Text.Respacing
import ReportMigration.Proofs.Text.Scanner
import ReportMigration.Proofs.Text.Folding

/-!
# Scanners that see where white space is

A scanner is blind to white space when it only sees where there is some: in texts that are alike it
reads the same characters.
-/

namespace ReportMigration.Text

/-- The texts have the same ink and gaps at the same places, but for white space behind commas. -/
abbrev Near (x y : List Char) : Prop :=
  Alike (fun _ => True) none x y

section Words

variable {w : List Char}

theorem ink_word (hw : w.all isWord = true) : ink w = w :=
  List.filter_eq_self.2 fun c hc => by simp [isBlank_of_isWord (List.all_eq_true.1 hw c hc)]

theorem sealed_word (hw : w.all isWord = true) : Sealed w := by
  cases hl : w.getLast? with
  | none =>
    obtain rfl := List.getLast?_eq_none_iff.1 hl
    exact sealed_nil
  | some c =>
    refine sealed_of_getLast ?_
    simpa [hl] using isBlank_of_isWord (List.all_eq_true.1 hw c (List.mem_of_getLast? hl))

theorem head_any_word (hw : w.all isWord = true) (hne : w ≠ []) (x : List Char) :
    (w ++ x).head?.any (fun c => !isBlank c) = true := by
  cases w with
  | nil => exact absurd rfl hne
  | cons c w => simpa using isBlank_of_isWord (List.all_eq_true.1 hw c List.mem_cons_self)

end Words

namespace Scan

variable {α β : Type} {x y : List Char}

/-- What the scanner reads in two texts that are near each other has the same meaning and the same
ink, and leaves texts that are near each other. -/
structure Agreed (b b' : Option Char) (x y : List Char) (n m : Nat) : Prop where
  ink_eq : ink (y.take m) = ink (x.take n)
  near : Near (x.drop n) (y.drop m)
  isWord_eq : ((x.take n).getLast?.or b).any isWord = ((y.take m).getLast?.or b').any isWord

/-- The scanner reads the same characters in texts that are near each other. -/
def Blind (p : Scan α) : Prop :=
  ∀ (b b' : Option Char) (x y : List Char), b.any isWord = b'.any isWord → Near x y →
    (p ⟨b, x⟩ = none ∧ p ⟨b', y⟩ = none) ∨
      ∃ a n m, p ⟨b, x⟩ = some (a, n) ∧ p ⟨b', y⟩ = some (a, m) ∧ Agreed b b' x y n m

theorem near_of_word {w : List Char} (hw : w.all isWord = true) (h : Near (w ++ x) y) :
    ∃ z, y = w ++ z ∧ Near x z := by
  induction w generalizing y with
  | nil => exact ⟨y, rfl, h⟩
  | cons c w ih =>
    obtain ⟨hc, hw⟩ : isWord c = true ∧ w.all isWord = true := by simpa using hw
    obtain ⟨k, z, rfl, -, hgap, hz⟩ :=
      Alike.exists_cell (g := []) h rfl (isBlank_of_isWord hc)
    have hk : k = [] := by simpa using hgap
    have hcomma : some c ≠ some ',' := by
      rintro he
      rw [Option.some.inj he] at hc
      exact absurd hc (by decide)
    obtain ⟨z', rfl, hz'⟩ := ih hw (hz.of_ne_comma hcomma)
    exact ⟨z', by rw [hk]; rfl, hz'⟩

theorem near_append_word {w : List Char} (hw : w.all isWord = true) (h : Near x y) :
    Near (w ++ x) (w ++ y) := by
  induction w with
  | nil => exact h
  | cons c w ih =>
    obtain ⟨hc, hw⟩ : isWord c = true ∧ w.all isWord = true := by simpa using hw
    have hrest : Alike (fun _ => True) (some c) (w ++ x) (w ++ y) := (ih hw).of_ne_comma (by simp)
    exact Alike.cell (g := []) (k := []) hrest rfl rfl (isBlank_of_isWord hc) (.inl Iff.rfl)

theorem near_append_blank {g k : List Char} (hg : g.all isBlank = true) (hk : k.all isBlank = true)
    (hgk : g = [] ↔ k = []) (h : Near x y) (hx : gap x 0 = []) (hy : gap y 0 = []) :
    Near (g ++ x) (k ++ y) := by
  have hzero : ∀ {u z : List Char}, u.all isBlank = true → gap z 0 = [] → gap (u ++ z) 0 = u := by
    intro u z hu hz
    have hgap := gap_append_length u z
    rwa [ink_blank hu, List.length_nil, gap_blank_zero hu, hz, List.append_nil] at hgap
  refine ⟨by simp [ink_blank hg, ink_blank hk, h.ink_eq], fun i hi => ?_⟩
  rw [ink_append, ink_blank hg, List.nil_append] at hi
  cases i with
  | zero => exact .inl (by rw [hzero hg hx, hzero hk hy, hgk])
  | succ i =>
    have hbefore : beforeGap none (g ++ x) (i + 1) = beforeGap none x (i + 1) := by
      rw [beforeGap, beforeGap, ink_append, ink_blank hg, List.nil_append]
    rw [gap_append_blank hg x i.succ_pos, gap_append_blank hk y i.succ_pos, hbefore]
    exact (h.gaps (i + 1) hi).imp_right fun hb => ⟨hb.1, trivial⟩

theorem blind_letters {w : List Char} (hw : w.all (fun c => c.toNat < 0x80 && isWord c) = true) :
    Blind (letters w) := by
  -- Read in one of the texts, the letters are read in the other one.
  have hread : ∀ {b x y u n}, Near x y → letters w ⟨b, x⟩ = some (u, n) →
      ∃ t x' y', x = t ++ x' ∧ y = t ++ y' ∧ n = t.length ∧ t.map foldCase = w.map foldCase ∧
        Near x' y' := by
    intro b x y u n h hr
    obtain ⟨he, rfl⟩ := letters_eq_some.1 hr
    have ht : (x.take w.length).all isWord = true := by
      refine List.all_eq_true.2 fun c hc => ?_
      have hm : foldCase c ∈ w.map foldCase := he ▸ List.mem_map_of_mem hc
      obtain ⟨d, hd, hdc⟩ := List.mem_map.1 hm
      have hword := List.all_eq_true.1 hw d hd
      simp only [Bool.and_eq_true, decide_eq_true_eq] at hword
      exact isWord_of_foldCase_eq hdc.symm hword.1 hword.2
    obtain ⟨z, rfl, hz⟩ := near_of_word ht ((List.take_append_drop w.length x).symm ▸ h)
    refine ⟨_, x.drop w.length, z, (List.take_append_drop _ _).symm, rfl, ?_, he, hz⟩
    simpa using (congrArg List.length he).symm
  have hsome : ∀ {b t x'}, t.map foldCase = w.map foldCase →
      letters w ⟨b, t ++ x'⟩ = some ((), t.length) := by
    intro b t x' ht
    have hl : t.length = w.length := by simpa using congrArg List.length ht
    exact letters_eq_some.2 ⟨by rw [List.take_left' hl, ht], hl⟩
  intro b b' x y hb h
  cases hx : letters w ⟨b, x⟩ with
  | some r =>
    obtain ⟨⟨⟩, n⟩ := r
    obtain ⟨t, x', y', rfl, rfl, rfl, ht, hz⟩ := hread h hx
    refine .inr ⟨(), t.length, t.length, rfl, hsome ht, ?_, ?_, ?_⟩
    · simp
    · simpa using hz
    · simp only [List.take_left']
      cases t.getLast? with
      | none => exact hb
      | some c => rfl
  | none =>
    refine .inl ⟨rfl, ?_⟩
    rw [Option.eq_none_iff_forall_ne_some]
    rintro ⟨u, n⟩ hy
    obtain ⟨t, y', x', rfl, rfl, -, ht, -⟩ := hread h.symm hy
    rw [hsome ht] at hx
    cases hx

theorem blind_wordBoundary : Blind wordBoundary := by
  intro b b' x y hb h
  have hhead : x.head?.any isWord = y.head?.any isWord := by
    rcases blank_or_cell x with hx | ⟨g, c, x, rfl, hg, hc⟩
    · rw [head?_any_isWord_of_blank hx, head?_any_isWord_of_blank (h.blank hx)]
    · obtain ⟨k, z, rfl, hk, hgap, -⟩ := h.exists_cell hg hc
      have hgap : g = [] ↔ k = [] := by simpa using hgap
      cases g with
      | nil =>
        obtain rfl := hgap.1 rfl
        rfl
      | cons d g =>
        cases k with
        | nil => exact absurd (hgap.2 rfl) (by simp)
        | cons e k =>
          have hd := isWord_of_isBlank (List.all_eq_true.1 hg d (by simp))
          have he := isWord_of_isBlank (List.all_eq_true.1 hk e (by simp))
          simp [hd, he]
  simp only [wordBoundary, guard, hb, hhead]
  by_cases ht : (b'.any isWord != y.head?.any isWord) = true
  · rw [if_pos ht]
    exact .inr ⟨(), 0, 0, rfl, rfl, rfl, h, hb⟩
  · rw [if_neg ht]
    exact .inl ⟨rfl, rfl⟩

theorem Blind.bind {p : Scan α} {next : α → Scan β} (hp : Blind p) (hn : ∀ a, Blind (next a)) :
    Blind (p >>= next) := by
  intro b b' x y hb h
  rcases hp b b' x y hb h with ⟨hx, hy⟩ | ⟨a, n, m, hx, hy, hread⟩
  · exact .inl ⟨by rw [bind_apply, hx]; rfl, by rw [bind_apply, hy]; rfl⟩
  · rcases hn a _ _ _ _ hread.isWord_eq hread.near with ⟨hx', hy'⟩ | ⟨a', n', m', hx', hy', hread'⟩
    · refine .inl ⟨?_, ?_⟩
      · rw [bind_apply, hx]
        simp only [Option.bind_some, Cursor.advance, hx', Option.map_none]
      · rw [bind_apply, hy]
        simp only [Option.bind_some, Cursor.advance, hy', Option.map_none]
    · refine .inr ⟨a', n + n', m + m', bind_eq_some.2 ⟨a, n, n', hx, hx', rfl⟩,
        bind_eq_some.2 ⟨a, m, m', hy, hy', rfl⟩, ?_, ?_, ?_⟩
      · rw [List.take_add, List.take_add, ink_append, ink_append, hread.ink_eq, hread'.ink_eq]
      · rw [← List.drop_drop, ← List.drop_drop]
        exact hread'.near
      · rw [List.take_add, List.take_add, List.getLast?_append, List.getLast?_append,
          Option.or_assoc, Option.or_assoc]
        exact hread'.isWord_eq

theorem Blind.orElse {p q : Scan α} (hp : Blind p) (hq : Blind q) : Blind (p.orElse q) := by
  intro b b' x y hb h
  rcases hp b b' x y hb h with ⟨hx, hy⟩ | ⟨a, n, m, hx, hy, hread⟩
  · rcases hq b b' x y hb h with ⟨hx', hy'⟩ | ⟨a, n, m, hx', hy', hread⟩
    · exact .inl ⟨by rw [Scan.orElse, hx, hx']; rfl, by rw [Scan.orElse, hy, hy']; rfl⟩
    · exact .inr ⟨a, n, m, by rw [Scan.orElse, hx, hx']; rfl, by rw [Scan.orElse, hy, hy']; rfl, hread⟩
  · exact .inr ⟨a, n, m, by rw [Scan.orElse, hx]; rfl, by rw [Scan.orElse, hy]; rfl, hread⟩

theorem blind_anyKeyword {ws : List String}
    (hw : ∀ w ∈ ws, w.toList.all (fun c => c.toNat < 0x80 && isWord c) = true) :
    Blind (anyKeyword ws) := by
  induction ws with
  | nil => exact fun _ _ _ _ _ _ => .inl ⟨rfl, rfl⟩
  | cons w ws ih =>
    obtain ⟨hw, hws⟩ := List.forall_mem_cons.1 hw
    exact (blind_letters hw).orElse (ih hws)

section Blanks

variable {q : Scan α} {b : Option Char} {c : Char} {g t : List Char}

private theorem blanks₁_bind_blank (hnil : ∀ b, q ⟨b, []⟩ = none) (ht : t.all isBlank = true) :
    (blanks₁ >>= fun _ => q) ⟨b, t⟩ = none := by
  rw [Option.eq_none_iff_forall_ne_some]
  rintro ⟨a, n⟩ h
  obtain ⟨_, n, m, hn, hm, -⟩ := bind_eq_some.1 h
  obtain ⟨rfl, -⟩ := run₁_eq_some.1 hn
  have hall : t.takeWhile isBlank = t := List.takeWhile_eq_self_iff.2 (by simpa using ht)
  simp [Cursor.advance, hall, hnil] at hm

private theorem blanks₁_bind_ink (hc : isBlank c = false) :
    (blanks₁ >>= fun _ => q) ⟨b, c :: x⟩ = none := by
  have hr : blanks₁ ⟨b, c :: x⟩ = none := by simp [blanks₁, run₁, hc]
  rw [bind_apply, hr]
  rfl

private theorem blanks₁_bind_cell (hg : g.all isBlank = true) (hne : g ≠ []) (hc : isBlank c = false) :
    (blanks₁ >>= fun _ => q) ⟨b, g ++ c :: x⟩ =
      (q ⟨g.getLast?, c :: x⟩).map fun r => (r.1, g.length + r.2) := by
  have hn : blanks₁ ⟨b, g ++ c :: x⟩ = some ((), g.length) :=
    run₁_eq_some.2 ⟨by rw [takeWhile_cell hg hc], List.length_pos_iff.2 hne⟩
  have hlast : g.getLast?.or b = g.getLast? := Option.or_of_isSome (List.getLast?_isSome.2 hne)
  rw [bind_apply, hn]
  simp [Cursor.advance, hlast]

/-- White space in front of what is read may be any white space. -/
private theorem Agreed.behind_blanks {b' : Option Char} {k : List Char} {n m : Nat}
    (h : Agreed g.getLast? k.getLast? x y n m) (hg : g.all isBlank = true) (hk : k.all isBlank = true)
    (hg₀ : g ≠ []) (hk₀ : k ≠ []) :
    Agreed b b' (g ++ x) (k ++ y) (g.length + n) (k.length + m) where
  ink_eq := by
    rw [List.take_length_add_append, List.take_length_add_append, ink_append, ink_append,
      ink_blank hg, ink_blank hk, h.ink_eq]
  near := by
    rw [List.drop_length_add_append, List.drop_length_add_append]
    exact h.near
  isWord_eq := by
    have hor : ∀ {u : List Char} {o : Option Char}, u ≠ [] → u.getLast?.or o = u.getLast? :=
      fun hu => Option.or_of_isSome (List.getLast?_isSome.2 hu)
    rw [List.take_length_add_append, List.take_length_add_append, List.getLast?_append,
      List.getLast?_append, Option.or_assoc, Option.or_assoc, hor hg₀, hor hk₀]
    exact h.isWord_eq

theorem Blind.behind_blanks (hq : Blind q) (hnil : ∀ b, q ⟨b, []⟩ = none) :
    Blind (blanks₁ >>= fun _ => q) := by
  intro b b' x y hb h
  rcases blank_or_cell x with hx | ⟨g, c, x, rfl, hg, hc⟩
  · exact .inl ⟨blanks₁_bind_blank hnil hx, blanks₁_bind_blank hnil (h.blank hx)⟩
  · obtain ⟨k, z, rfl, hk, hgap, hz⟩ := h.exists_cell hg hc
    have hgap : g = [] ↔ k = [] := by simpa using hgap
    by_cases hg₀ : g = []
    · obtain rfl := hgap.1 hg₀
      rw [hg₀]
      exact .inl ⟨blanks₁_bind_ink hc, blanks₁_bind_ink hc⟩
    · have hk₀ : k ≠ [] := mt hgap.2 hg₀
      rw [blanks₁_bind_cell hg hg₀ hc, blanks₁_bind_cell hk hk₀ hc]
      have hnear : Near (c :: x) (c :: z) := Alike.cell (g := []) (k := []) hz rfl rfl hc (.inl Iff.rfl)
      have hword : g.getLast?.any isWord = k.getLast?.any isWord := by
        rw [getLast?_any_isWord_of_blank hg, getLast?_any_isWord_of_blank hk]
      rcases hq g.getLast? k.getLast? _ _ hword hnear with ⟨hx, hy⟩ | ⟨a, n, m, hx, hy, hread⟩
      · exact .inl ⟨by rw [hx]; rfl, by rw [hy]; rfl⟩
      · exact .inr ⟨a, g.length + n, k.length + m, by rw [hx]; rfl, by rw [hy]; rfl,
          hread.behind_blanks hg hk hg₀ hk₀⟩

end Blanks

end Scan

end ReportMigration.Text
