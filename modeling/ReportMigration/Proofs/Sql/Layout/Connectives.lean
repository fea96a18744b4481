import ReportMigration.Proofs.Text.Blind
import ReportMigration.Proofs.Text.Lookahead
import ReportMigration.Sql.Layout

/-!
# What breaking before connectives does to white space

A connective between white space gets a line of its own. It takes the white space behind it along,
so that a second one directly behind it stays where it is.
-/

namespace ReportMigration.Sql.Layout

open Text Scan

variable {b : Option Char} {c : Char} {g t v w x x' y y' : List Char} {n : Nat}

/-- The text begins with a connective that white space follows. -/
structure Linked (t w v : List Char) : Prop where
  eq : t = w ++ v
  word : Scan.anyKeyword ["AND", "OR"] ⟨none, t⟩ = some ((), w.length)
  blank : gap v 0 ≠ []

theorem Linked.shape (h : Linked t w v) :
    w ≠ [] ∧ w.all isWord = true ∧ w.length ≤ 3 := by
  obtain ⟨k, hk, ht⟩ := yields_anyKeyword _ _ _ _ h.word
  have hspells : Spells k w := by
    rw [h.eq, List.take_left' rfl] at ht
    exact ht
  have hshort : ∀ k ∈ ["AND", "OR"], k.toList ≠ [] ∧
      k.toList.all (fun c => c.toNat < 0x80 && isWord c) = true ∧ k.toList.length ≤ 3 := by
    decide
  obtain ⟨hne, hall, hlen⟩ := hshort k hk
  have hlength : w.length = k.toList.length := by simpa using congrArg List.length hspells
  exact ⟨hspells.ne_nil hne, List.all_eq_true.2 fun c hc => hspells.isWord_of_mem hall hc, by omega⟩

theorem connective_beside (b : Option Char) (t : List Char) :
    connective ⟨b, t⟩ = connective ⟨none, t⟩ := rfl

theorem connective_linked (hg : g.all isBlank = true) (hne : g ≠ []) (h : Linked t w v) :
    connective ⟨b, g ++ t⟩ = some (indent ++ w ++ [' '], (g ++ (w ++ gap v 0)).length) := by
  obtain ⟨hw, hword, -⟩ := h.shape
  have hfirst : blanks₁ ⟨b, g ++ t⟩ = some ((), g.length) := by
    refine run₁_eq_some.2 ⟨?_, List.length_pos_iff.2 hne⟩
    rw [h.eq]
    cases w with
    | nil => exact absurd rfl hw
    | cons c w =>
      have hc : isBlank c = false := isBlank_of_isWord (List.all_eq_true.1 hword c List.mem_cons_self)
      rw [List.cons_append, takeWhile_cell hg hc]
  have hsecond : Scan.written (Scan.anyKeyword ["AND", "OR"]) ⟨g.getLast?.or b, t⟩ =
      some (w, w.length) := by
    refine Option.map_eq_some_iff.2 ⟨((), w.length), h.word, ?_⟩
    simp [h.eq]
  have hthird : blanks₁ ⟨w.getLast?.or (g.getLast?.or b), v⟩ = some ((), (gap v 0).length) :=
    run₁_eq_some.2 ⟨rfl, List.length_pos_iff.2 h.blank⟩
  refine bind_eq_some.2 ⟨(), g.length, w.length + (gap v 0).length, hfirst,
    bind_eq_some.2 ⟨w, w.length, (gap v 0).length, ?_, bind_eq_some.2
      ⟨(), (gap v 0).length, 0, ?_, rfl, rfl⟩, rfl⟩, by simp⟩
  · simpa [Cursor.advance] using hsecond
  · simpa [Cursor.advance, h.eq] using hthird

theorem linked_of_connective {r : List Char × Nat} (hg : g.all isBlank = true)
    (ht : t.head?.any isBlank = false) (h : connective ⟨b, g ++ t⟩ = some r) :
    g ≠ [] ∧ ∃ w v, Linked t w v := by
  have hrun : (g ++ t).takeWhile isBlank = g := by
    rw [List.takeWhile_append_of_pos (by simpa using hg)]
    cases t with
    | nil => simp
    | cons c t => rw [List.takeWhile_cons_of_neg (by simpa using ht), List.append_nil]
  obtain ⟨a, k⟩ := r
  obtain ⟨_, n, m, hn, hm, -⟩ := bind_eq_some.1 h
  obtain ⟨rfl, hpos⟩ := run₁_eq_some.1 hn
  obtain ⟨u, m, l, hu, hl, -⟩ := bind_eq_some.1 hm
  obtain ⟨⟨_, m⟩, hword, he⟩ := Option.map_eq_some_iff.1 hu
  obtain ⟨rfl, rfl⟩ := Prod.mk.inj he
  obtain ⟨_, l, _, hl, -, -⟩ := bind_eq_some.1 hl
  obtain ⟨rfl, hblank⟩ := run₁_eq_some.1 hl
  simp only [Cursor.advance, hrun, List.drop_left'] at hword hblank
  rw [hrun] at hpos
  have hle : m ≤ t.length :=
    (Confined.anyKeyword (d := ';') (by decide +kernel)).within hword
  refine ⟨List.length_pos_iff.1 hpos, t.take m, t.drop m, (List.take_append_drop m t).symm, ?_,
    List.length_pos_iff.1 hblank⟩
  rw [List.length_take, Nat.min_eq_left hle]
  exact hword

private theorem segmentsFrom_connective (b : Option Char) (t : List Char) :
    segmentsFrom connective 0 b t = connective.segments t := by
  cases t with
  | nil => rfl
  | cons c t => rw [segments, segmentsFrom, segmentsFrom, connective_beside]

private theorem substitute_blanks (hg : g.all isBlank = true) (ht : t.head?.any isBlank = false)
    (hmiss : ∀ w v, ¬ Linked t w v) :
    connective.substitute (g ++ t) = g ++ connective.substitute t := by
  induction g with
  | nil => rfl
  | cons d g ih =>
    have hall : g.all isBlank = true := by
      rw [List.all_cons, Bool.and_eq_true] at hg
      exact hg.2
    have hplain : ∀ a n, connective ⟨none, d :: (g ++ t)⟩ ≠ some (a, n + 1) := by
      intro a n h
      obtain ⟨-, w, v, hl⟩ := linked_of_connective hg ht h
      exact hmiss w v hl
    rw [List.cons_append, substitute, segments, segmentsFrom_plain hplain, segmentsFrom_connective,
      List.flatMap_cons]
    exact congrArg (d :: ·) (ih hall)

theorem connectives_blank (hg : g.all isBlank = true) : connective.substitute g = g := by
  have h := substitute_blanks hg (t := []) rfl fun w v hl => by
    have he := hl.eq
    rw [eq_comm, List.append_eq_nil_iff] at he
    exact hl.shape.1 he.1
  rw [List.append_nil] at h
  exact h.trans (List.append_nil g)

theorem connectives_miss (hg : g.all isBlank = true) (hc : isBlank c = false)
    (hmiss : g = [] ∨ ∀ w v, ¬ Linked (c :: x) w v) :
    connective.substitute (g ++ c :: x) = g ++ c :: connective.substitute x := by
  have hhead : (c :: x).head?.any isBlank = false := by simpa using hc
  have hplain : ∀ a n, connective ⟨none, c :: x⟩ ≠ some (a, n + 1) := by
    intro a n h
    exact (linked_of_connective (g := []) rfl hhead h).1 rfl
  have hself : connective.substitute (c :: x) = c :: connective.substitute x := by
    rw [substitute, segments, segmentsFrom_plain hplain, segmentsFrom_connective, List.flatMap_cons]
    rfl
  rcases hmiss with rfl | hmiss
  · exact hself
  · rw [substitute_blanks hg hhead hmiss, hself]

theorem connectives_hit (hg : g.all isBlank = true) (hne : g ≠ []) (h : Linked t w v) :
    connective.substitute (g ++ t) =
      indent ++ (w ++ ' ' :: connective.substitute (trimStart v)) := by
  have hv : g ++ t = (g ++ (w ++ gap v 0)) ++ trimStart v := by
    rw [h.eq, trimStart, gap_zero]
    simp
  have hread := connective_linked (b := none) hg hne h
  rw [hv] at hread ⊢
  rw [substitute, segments, segmentsFrom_append_hit (by simp [hne]) hread, segmentsFrom_connective,
    List.flatMap_cons]
  simp [Segment.replaced, substitute]

/-- What becomes of a gap in two texts, of which the first may go on with white space behind all ink
where the other one ends. Both stay, or the same takes the place of both, or a connective that ends
the text is only broken off where white space follows it. -/
inductive Joins (b : Option Char) (n : Nat) (g h : List Char) : List Char → List Char → Prop
  | keep : Joins b n g h g h
  | set {t : List Char} (ht : t ≠ []) (hg : g ≠ []) : Joins b n g h t t
  | late (hg : g ≠ []) (hn : n ≤ 3) : Joins b n g h indent h
  | last {g' h' : List Char} (hn : n = 0) : Joins b n g h g' h'

/-- The texts have the same ink and white space in the same gaps. Behind all ink the first has some
if the second has. -/
structure Matched (x y : List Char) : Prop where
  ink_eq : ink y = ink x
  gaps : ∀ i < (ink x).length, gap x i = [] ↔ gap y i = []
  last : gap y (ink x).length ≠ [] → gap x (ink x).length ≠ []

namespace Matched

theorem ne_nil (h : Matched x y) (hy : gap y 0 ≠ []) : gap x 0 ≠ [] := by
  by_cases hn : (ink x).length = 0
  · rw [← hn]
    exact h.last (hn ▸ hy)
  · exact mt (h.gaps 0 (Nat.pos_of_ne_zero hn)).1 hy

theorem blank (h : Matched x y) (hx : x.all isBlank = true) : y.all isBlank = true := by
  rw [← ink_eq_nil, h.ink_eq, ink_blank hx]

theorem exists_cell (h : Matched (g ++ c :: x) y) (hg : g.all isBlank = true)
    (hc : isBlank c = false) : ∃ k z, y = k ++ c :: z ∧ k.all isBlank = true ∧ (g = [] ↔ k = []) ∧
      Matched x z := by
  have hink := h.ink_eq
  have hgaps := h.gaps
  have hlast := h.last
  rw [ink_cell hg hc] at hink hgaps hlast
  obtain ⟨k, z, rfl, hk, -, hz⟩ := Text.exists_cell hink
  refine ⟨k, z, rfl, hk, ?_, hz, fun i hi => ?_, fun hne => ?_⟩
  · have hzero := hgaps 0 (Nat.succ_pos _)
    rwa [gap_cell_zero hg hc, gap_cell_zero hk hc] at hzero
  · have hsucc := hgaps (i + 1) (Nat.succ_lt_succ hi)
    rwa [gap_cell_succ hg hc, gap_cell_succ hk hc] at hsucc
  · rw [List.length_cons, gap_cell_succ hg hc, gap_cell_succ hk hc] at hlast
    exact hlast hne

theorem behind_word (h : Matched (w ++ v) y) (hw : w.all isWord = true) :
    ∃ z, y = w ++ z ∧ Matched v z := by
  induction w generalizing y with
  | nil => exact ⟨y, rfl, h⟩
  | cons c w ih =>
    obtain ⟨hc, hw⟩ : isWord c = true ∧ w.all isWord = true := by simpa using hw
    obtain ⟨k, z, rfl, -, hgap, hz⟩ := exists_cell (g := []) h rfl (isBlank_of_isWord hc)
    obtain rfl := hgap.1 rfl
    obtain ⟨z', rfl, hz'⟩ := ih hz hw
    exact ⟨z', rfl, hz'⟩

theorem trimStart (h : Matched x y) : Matched (trimStart x) (trimStart y) := by
  refine ⟨by simpa using h.ink_eq, fun i hi => ?_, ?_⟩
  · rw [ink_trimStart] at hi
    cases i with
    | zero => simp
    | succ i => simpa using h.gaps (i + 1) hi
  · have hlast := h.last
    rw [ink_trimStart]
    cases hn : (ink x).length with
    | zero => simp
    | succ n => simpa [hn] using hlast

end Matched

theorem Linked.exchange {z : List Char} (h : Linked (w ++ v) w v) (hz : gap z 0 ≠ []) :
    Linked (w ++ z) w z := by
  have hforesees : Foresees (fun _ _ => True) (anyKeyword ["AND", "OR"]) :=
    foresees_anyKeyword (by decide) (by decide)
  exact ⟨rfl, hforesees none w v z () trivial h.word, hz⟩

/-- In the second text the same connective begins, unless white space follows it in the first one
only, and nothing else. -/
theorem Matched.linked (h : Matched x y) (hx : Linked x w v) :
    ∃ z, y = w ++ z ∧ Matched v z ∧ (Linked y w z ∨ (v.all isBlank = true ∧ z = [])) := by
  obtain rfl := hx.eq
  obtain ⟨z, rfl, hz⟩ := h.behind_word hx.shape.2.1
  refine ⟨z, rfl, hz, ?_⟩
  by_cases hne : gap z 0 = []
  · right
    have hv : (ink v).length = 0 := by
      by_contra hn
      exact hx.blank ((hz.gaps 0 (Nat.pos_of_ne_zero hn)).2 hne)
    have hvb := ink_eq_nil.1 (List.length_eq_zero_iff.1 hv)
    exact ⟨hvb, by rwa [gap_blank_zero (hz.blank hvb)] at hne⟩
  · exact .inl (hx.exchange hne)

theorem Matched.linked_left (h : Matched x y) (hy : Linked y w v) : ∃ z, Linked x w z := by
  obtain rfl := hy.eq
  have hnear : Near x (w ++ v) := ⟨h.ink_eq, fun i hi => .inl (h.gaps i hi)⟩
  obtain ⟨z, rfl, -⟩ := near_of_word hy.shape.2.1 hnear.symm
  obtain ⟨v', he, hz⟩ := h.behind_word hy.shape.2.1
  obtain rfl := List.append_cancel_left he
  exact ⟨z, hy.exchange (hz.ne_nil hy.blank)⟩

theorem connectives_word (hw : w.all isWord = true) (x : List Char) :
    connective.substitute (w ++ x) = w ++ connective.substitute x := by
  induction w with
  | nil => rfl
  | cons c w ih =>
    obtain ⟨hc, hw⟩ : isWord c = true ∧ w.all isWord = true := by simpa using hw
    have hmiss := connectives_miss (g := []) (x := w ++ x) rfl (isBlank_of_isWord hc) (.inl rfl)
    exact hmiss.trans (congrArg (c :: ·) (ih hw))

theorem connectives_blank_word (hg : g.all isBlank = true) (hw : w.all isWord = true) (hne : w ≠ []) :
    connective.substitute (g ++ w) = g ++ w := by
  have hself : connective.substitute w = w := by
    have h := connectives_word hw []
    rwa [List.append_nil, connectives_blank (g := []) rfl, List.append_nil] at h
  rw [substitute_blanks hg, hself]
  · have hhead := head_any_word hw hne []
    rw [List.append_nil] at hhead
    cases w with
    | nil => rfl
    | cons c w => simpa using hhead
  · rintro u v hl
    refine hl.blank ?_
    rw [hl.eq, List.all_append, Bool.and_eq_true] at hw
    cases v with
    | nil => rfl
    | cons c v =>
      have hc : isWord c = true := List.all_eq_true.1 hw.2 c List.mem_cons_self
      rw [gap_zero, List.takeWhile_cons_of_neg (by simp [isBlank_of_isWord hc])]

theorem trimStart_connectives (x : List Char) :
    trimStart (connective.substitute (trimStart x)) = connective.substitute (trimStart x) := by
  rcases blank_or_cell x with hx | ⟨g, c, x, rfl, hg, hc⟩
  · rw [trimStart_eq_nil hx]
    rfl
  · have hmiss := connectives_miss (g := []) (x := x) rfl hc (.inl rfl)
    rw [List.nil_append, List.nil_append] at hmiss
    rw [trimStart, trimStart, dropWhile_cell hg hc, hmiss, List.dropWhile_cons_of_neg (by simp [hc])]

section Linked

variable {k z : List Char}

private theorem respaced_behind_word {h v' z' : List Char} (hg : g.all isBlank = true)
    (hk : k.all isBlank = true) (hw : w.all isWord = true) (hw₀ : w ≠ []) (hh : h.all isBlank = true)
    (hjoins : Joins b (ink (w ++ v)).length g k indent h)
    (hr : Respaced Joins (lastInk b w) v z v' z') :
    Respaced Joins b (g ++ (w ++ v)) (k ++ (w ++ z)) (indent ++ (w ++ v')) (h ++ (w ++ z')) := by
  have hkeep := (hr.prepend (fun _ _ _ _ => .keep) rfl (sealed_word hw) (sealed_word hw)).regap
    hg hk (by decide : indent.all isBlank = true) hh hjoins
  simpa only [trimStart_eq_self (head_any_word hw hw₀ _)] using hkeep

private theorem respaced_linked (hg : g.all isBlank = true) (hk : k.all isBlank = true) (hg₀ : g ≠ [])
    (hk₀ : k ≠ []) (hv : Linked (w ++ v) w v) (hz : Linked (w ++ z) w z)
    (hr : Respaced Joins (lastInk b w) (trimStart v) (trimStart z)
      (connective.substitute (trimStart v)) (connective.substitute (trimStart z))) :
    Respaced Joins b (g ++ (w ++ v)) (k ++ (w ++ z)) (connective.substitute (g ++ (w ++ v)))
      (connective.substitute (k ++ (w ++ z))) := by
  obtain ⟨hw₀, hw, -⟩ := hv.shape
  rw [connectives_hit hg hg₀ hv, connectives_hit hk hk₀ hz]
  have hrest := hr.regap (all_gap v 0) (all_gap z 0) (by decide : [' '].all isBlank = true)
    (by decide : [' '].all isBlank = true) (.set (by decide) hv.blank)
  rw [trimStart_trimStart, trimStart_trimStart, gap_append_trimStart, gap_append_trimStart,
    trimStart_connectives, trimStart_connectives] at hrest
  exact respaced_behind_word hg hk hw hw₀ (by decide) (.set (by decide) hg₀) hrest

/-- A connective behind which nothing follows in the second text, where it stays on its line. -/
private theorem respaced_linked_last (hg : g.all isBlank = true) (hk : k.all isBlank = true)
    (hg₀ : g ≠ []) (hl : Linked (w ++ v) w v) (hv : v.all isBlank = true) :
    Respaced Joins b (g ++ (w ++ v)) (k ++ (w ++ [])) (connective.substitute (g ++ (w ++ v)))
      (connective.substitute (k ++ (w ++ []))) := by
  obtain ⟨hw₀, hw, hlen⟩ := hl.shape
  have hstay := connectives_blank_word hk hw hw₀
  rw [← List.append_nil w] at hstay
  rw [connectives_hit hg hg₀ hl, hstay, trimStart_eq_nil hv]
  refine respaced_behind_word hg hk hw hw₀ hk (.late hg₀ ?_) (.blank hv rfl (by decide) rfl (.last rfl))
  rw [ink_append, ink_blank hv, List.append_nil, ink_word hw]
  exact hlen

end Linked

/-- In texts with white space in the same gaps the same connectives get a line of their own. -/
theorem respaced_connectives (b : Option Char) (h : Matched x y) :
    Respaced Joins b x y (connective.substitute x) (connective.substitute y) := by
  induction hn : x.length using Nat.strongRecOn generalizing b x y with
  | ind n ih =>
    subst hn
    rcases blank_or_cell x with hx | ⟨g, c, x, rfl, hg, hc⟩
    · rw [connectives_blank hx, connectives_blank (h.blank hx)]
      exact .blank hx (h.blank hx) hx (h.blank hx) (.last rfl)
    · obtain ⟨k, y, rfl, hk, hgk, hxy⟩ := h.exists_cell hg hc
      have hcell : Matched (c :: x) (c :: y) := by
        have ht := h.trimStart
        rwa [trimStart, trimStart, dropWhile_cell hg hc, dropWhile_cell hk hc] at ht
      by_cases hlink : g ≠ [] ∧ ∃ w v, Linked (c :: x) w v
      · obtain ⟨hg₀, w, v, hl⟩ := hlink
        obtain ⟨z, hz, hvz, hly⟩ := hcell.linked hl
        have hshorter : (trimStart v).length < (g ++ c :: x).length := by
          have hle : (trimStart v).length ≤ v.length := List.length_dropWhile_le _ _
          have hpos := List.length_pos_iff.2 hl.shape.1
          rw [hl.eq]
          simp only [List.length_append]
          omega
        have hrest := ih _ hshorter (lastInk b w) hvz.trimStart rfl
        have hxw := hl.eq
        rw [hxw] at hl ⊢
        rw [hz] at hly ⊢
        rcases hly with hly | ⟨hv, rfl⟩
        · exact respaced_linked hg hk hg₀ (mt hgk.2 hg₀) hl hly hrest
        · exact respaced_linked_last hg hk hg₀ hl hv
      · have hright : ¬ (k ≠ [] ∧ ∃ w v, Linked (c :: y) w v) := by
          rintro ⟨hk₀, w, v, hl⟩
          obtain ⟨z, hl'⟩ := hcell.linked_left hl
          exact hlink ⟨mt hgk.1 hk₀, w, z, hl'⟩
        rw [connectives_miss hg hc (by simpa [or_iff_not_imp_left] using hlink),
          connectives_miss hk hc (by simpa [or_iff_not_imp_left] using hright)]
        exact (ih x.length (by simp; omega) (some c) hxy rfl).cell hc hg hk hg hk .keep

end ReportMigration.Sql.Layout
