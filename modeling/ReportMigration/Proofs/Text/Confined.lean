import ReportMigration.Proofs.Text.Scanner

/-!
# Scanners that keep to their side of a character

A scanner is confined by a character when it takes that character for the end of the text. Such a
scanner substitutes in a text piece by piece between these characters, `substitute_append`.
-/

namespace ReportMigration.Text.Scan

variable {α β : Type} {d : Char}

/-- The scanner stays within the text, takes a character for its end, and asks of the character in
front only whether it is a word character. -/
structure Confined (d : Char) (p : Scan α) : Prop where
  within : ∀ {c : Cursor} {a : α} {n : Nat}, p c = some (a, n) → n ≤ c.ahead.length
  stops : ∀ b x z, p ⟨b, x ++ d :: z⟩ = p ⟨b, x⟩
  beside : ∀ {b b' : Option Char} (x : List Char), b.any isWord = b'.any isWord → p ⟨b, x⟩ = p ⟨b', x⟩

namespace Confined

variable {p q : Scan α}

theorem pure (a : α) : Confined d (pure a : Scan α) where
  within h := by
    cases h
    exact Nat.zero_le _
  stops _ _ _ := rfl
  beside _ _ := rfl

theorem bind {next : α → Scan β} (hp : Confined d p) (hn : ∀ a, Confined d (next a)) :
    Confined d (p >>= next) where
  within {c b k} h := by
    obtain ⟨a, n, m, h₁, h₂, rfl⟩ := bind_eq_some.1 h
    have hl := hp.within h₁
    have hm := (hn a).within h₂
    simp only [Cursor.advance, List.length_drop] at hm
    omega
  stops b x z := by
    rw [bind_apply, bind_apply, hp.stops]
    cases h : p ⟨b, x⟩ with
    | none => rfl
    | some r =>
      obtain ⟨a, n⟩ := r
      have hl : n ≤ x.length := hp.within h
      simp only [Option.bind_some, Cursor.advance, List.take_append_of_le_length hl,
        List.drop_append_of_le_length hl]
      rw [(hn a).stops]
  beside {b b'} x hb := by
    rw [bind_apply, bind_apply, hp.beside x hb]
    cases h : p ⟨b', x⟩ with
    | none => rfl
    | some r =>
      obtain ⟨a, n⟩ := r
      simp only [Option.bind_some, Cursor.advance]
      have hlast : ((x.take n).getLast?.or b).any isWord = ((x.take n).getLast?.or b').any isWord := by
        cases (x.take n).getLast? with
        | none => exact hb
        | some c => rfl
      rw [(hn a).beside (x.drop n) hlast]

theorem orElse (hp : Confined d p) (hq : Confined d q) : Confined d (p.orElse q) where
  within {c a n} h := by
    rcases Option.or_eq_some_iff.1 h with h | ⟨-, h⟩
    · exact hp.within h
    · exact hq.within h
  stops b x z := by
    rw [Scan.orElse, Scan.orElse, hp.stops, hq.stops]
  beside x hb := by
    rw [Scan.orElse, Scan.orElse, hp.beside x hb, hq.beside x hb]

theorem written (hp : Confined d p) : Confined d p.written where
  within {c a n} h := by
    obtain ⟨⟨u, m⟩, hm, he⟩ := Option.map_eq_some_iff.1 h
    cases he
    exact hp.within hm
  stops b x z := by
    rw [Scan.written, Scan.written, hp.stops]
    cases h : p ⟨b, x⟩ with
    | none => rfl
    | some r =>
      obtain ⟨a, n⟩ := r
      have hl : n ≤ x.length := hp.within h
      simp [List.take_append_of_le_length hl]
  beside x hb := by
    rw [Scan.written, Scan.written, hp.beside x hb]

theorem wordBoundary (hd : isWord d = false) : Confined d wordBoundary where
  within {c a n} h := by
    obtain ⟨-, rfl⟩ := guard_eq_some.1 h
    exact Nat.zero_le _
  stops b x z := by
    cases x with
    | nil => simp [Scan.wordBoundary, Scan.guard, hd]
    | cons c x => rfl
  beside x hb := by
    simp only [Scan.wordBoundary, Scan.guard, hb]

theorem one {test : Char → Bool} (hd : test d = false) : Confined d (one test) where
  within {c a n} h := by
    obtain ⟨x, rest, he, -, rfl⟩ := one_eq_some.1 h
    simp [he]
  stops b x z := by
    cases x with
    | nil => simp [Scan.one, hd]
    | cons c x => rfl
  beside _ _ := rfl

theorem run {test : Char → Bool} (hd : test d = false) : Confined d (run test) where
  within {c a n} h := by
    rw [run_eq_some.1 h]
    exact (List.takeWhile_prefix test).length_le
  stops b x z := by
    simp only [Scan.run]
    rw [takeWhile_append_of_neg hd]
  beside _ _ := rfl

theorem run₁ {test : Char → Bool} (hd : test d = false) : Confined d (run₁ test) where
  within {c a n} h := by
    rw [run₁_eq_some.1 h |>.1]
    exact (List.takeWhile_prefix test).length_le
  stops b x z := by
    simp only [Scan.run₁]
    rw [takeWhile_append_of_neg hd]
  beside _ _ := rfl

theorem letters {w : List Char} (hd : foldCase d ∉ w.map foldCase) : Confined d (letters w) where
  within {c a n} h := by
    obtain ⟨he, rfl⟩ := letters_eq_some.1 h
    have hl : min w.length c.ahead.length = w.length := by simpa using congrArg List.length he
    omega
  stops b x z := by
    by_cases hl : w.length ≤ x.length
    · simp only [Scan.letters, List.take_append_of_le_length hl]
    · -- The word would have to go on with the character, or end before it.
      have hshort : ∀ y, (y.take w.length).map foldCase = w.map foldCase → y ≠ x ∧ y ≠ x ++ d :: z := by
        intro y hy
        refine ⟨?_, ?_⟩
        · rintro rfl
          have := congrArg List.length hy
          simp only [List.length_map, List.length_take] at this
          omega
        · rintro rfl
          refine hd (hy ▸ List.mem_map_of_mem ?_)
          rw [List.take_append]
          refine List.mem_append_right _ ?_
          cases hk : w.length - x.length with
          | zero => omega
          | succ k => simp
      simp only [Scan.letters]
      rw [if_neg fun h => (hshort _ (beq_iff_eq.1 h)).2 rfl,
        if_neg fun h => (hshort _ (beq_iff_eq.1 h)).1 rfl]
  beside _ _ := rfl

theorem anyKeyword {ws : List String} (hd : ∀ w ∈ ws, foldCase d ∉ w.toList.map foldCase) :
    Confined d (anyKeyword ws) := by
  induction ws with
  | nil =>
    exact ⟨fun h => absurd h (by simp [Scan.anyKeyword]), fun _ _ _ => rfl, fun _ _ => rfl⟩
  | cons w ws ih =>
    obtain ⟨hw, hws⟩ := List.forall_mem_cons.1 hd
    exact (letters hw).orElse (ih hws)

end Confined

variable {p : Scan α}

theorem Confined.segmentsFrom_append (h : Confined d p) (before : Option Char) (x z : List Char) :
    segmentsFrom p 0 before (x ++ d :: z) =
      segmentsFrom p 0 before x ++ .plain d :: segmentsFrom p 0 (some d) z := by
  induction before, x using segmentsFrom_induction p with
  | nil before =>
    refine segmentsFrom_plain fun a n he => ?_
    have hw := h.within ((h.stops before [] z).symm.trans he)
    simp at hw
  | hit before c x a n hit ih =>
    have hl : n ≤ x.length := Nat.le_of_succ_le_succ (h.within hit)
    have hit' : p ⟨before, c :: (x ++ d :: z)⟩ = some (a, n + 1) :=
      (h.stops before (c :: x) z).trans hit
    rw [List.take_succ_cons] at ih
    rw [List.cons_append, segmentsFrom_hit hit', segmentsFrom_hit hit,
      List.drop_append_of_le_length hl, List.take_succ_cons, List.take_succ_cons,
      List.take_append_of_le_length hl, ih]
    rfl
  | plain before c x hplain ih =>
    have hplain' : ∀ a n, p ⟨before, c :: (x ++ d :: z)⟩ ≠ some (a, n + 1) := fun a n he =>
      hplain a n ((h.stops before (c :: x) z).symm.trans he)
    rw [List.cons_append, segmentsFrom_plain hplain', segmentsFrom_plain hplain, ih]
    rfl

theorem Confined.segmentsFrom_beside (h : Confined d p) {b b' : Option Char}
    (hb : b.any isWord = b'.any isWord) (x : List Char) :
    segmentsFrom p 0 b x = segmentsFrom p 0 b' x := by
  cases x with
  | nil => rfl
  | cons c x => rw [segmentsFrom, segmentsFrom, h.beside (c :: x) hb]

theorem Confined.substitute_append {p : Scan (List Char)} (h : Confined d p)
    (hd : isWord d = false) (x z : List Char) :
    p.substitute (x ++ d :: z) = p.substitute x ++ d :: p.substitute z := by
  have hb : (some d).any isWord = none.any isWord := by simp [hd]
  rw [substitute, segments, h.segmentsFrom_append, h.segmentsFrom_beside hb]
  simp [substitute, segments, Segment.replaced]

end ReportMigration.Text.Scan
