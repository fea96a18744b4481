import Mathlib
import ReportMigration.Text.Scan

/-!
# What scanners read

When the scanners of `Text.Scan` succeed, and how the segments of a text go on behind a hit.
-/

namespace ReportMigration.Text.Scan

variable {α β : Type}

theorem bind_apply (p : Scan α) (next : α → Scan β) (c : Cursor) :
    (p >>= next) c =
      (p c).bind fun (a, n) => (next a (c.advance n)).map fun (b, m) => (b, n + m) := rfl

theorem bind_eq_some {p : Scan α} {next : α → Scan β} {c : Cursor} {b : β} {k : Nat} :
    (p >>= next) c = some (b, k) ↔
      ∃ a n m, p c = some (a, n) ∧ next a (c.advance n) = some (b, m) ∧ k = n + m := by
  rw [bind_apply]
  constructor
  · intro h
    obtain ⟨⟨a, n⟩, hp, h⟩ := Option.bind_eq_some_iff.1 h
    obtain ⟨⟨b', m⟩, hn, h⟩ := Option.map_eq_some_iff.1 h
    cases h
    exact ⟨a, n, m, hp, hn, rfl⟩
  · rintro ⟨a, n, m, hp, hn, rfl⟩
    simp [hp, hn]

theorem guard_eq_some {test : Cursor → Bool} {c : Cursor} {u : Unit} {n : Nat} :
    guard test c = some (u, n) ↔ test c = true ∧ n = 0 := by
  by_cases h : test c = true
  · simp [guard, h, @eq_comm Nat 0 n]
  · simp [guard, h]

theorem one_eq_some {test : Char → Bool} {c : Cursor} {u : Unit} {n : Nat} :
    one test c = some (u, n) ↔ ∃ x rest, c.ahead = x :: rest ∧ test x = true ∧ n = 1 := by
  unfold one
  cases hc : c.ahead with
  | nil => simp
  | cons x rest =>
    by_cases hx : test x = true
    · simp [hx, @eq_comm Nat 1 n]
    · simp [hx]

theorem run_eq_some {test : Char → Bool} {c : Cursor} {u : Unit} {n : Nat} :
    run test c = some (u, n) ↔ n = (c.ahead.takeWhile test).length := by
  simp [run, @eq_comm Nat n]

theorem run₁_eq_some {test : Char → Bool} {c : Cursor} {u : Unit} {n : Nat} :
    run₁ test c = some (u, n) ↔ n = (c.ahead.takeWhile test).length ∧ 0 < n := by
  unfold run₁
  cases h : (c.ahead.takeWhile test).length with
  | zero => simp
  | succ m => simp [@eq_comm Nat n]; omega

theorem takeWhile_append_of_neg {test : Char → Bool} {d : Char} (hd : test d = false)
    (x z : List Char) : (x ++ d :: z).takeWhile test = x.takeWhile test := by
  induction x with
  | nil => simp [hd]
  | cons c x ih =>
    rw [List.cons_append, List.takeWhile_cons, List.takeWhile_cons, ih]

theorem letters_eq_some {w : List Char} {c : Cursor} {u : Unit} {n : Nat} :
    letters w c = some (u, n) ↔
      (c.ahead.take w.length).map foldCase = w.map foldCase ∧ n = w.length := by
  unfold letters
  dsimp only
  by_cases h : (c.ahead.take w.length).map foldCase = w.map foldCase
  · simp only [h, beq_self_eq_true, if_true, Option.some.injEq, Prod.mk.injEq, true_and]
    exact eq_comm
  · simp only [beq_eq_false_iff_ne.2 h, Bool.false_eq_true, if_false, reduceCtorEq, h, false_and]

/-- Whenever the scanner reads something, its meaning and the text of it are so related. -/
def Yields (p : Scan α) (q : α → List Char → Prop) : Prop :=
  ∀ (c : Cursor) (a : α) (n : Nat), p c = some (a, n) → q a (c.ahead.take n)

theorem Yields.mono {p : Scan α} {q r : α → List Char → Prop} (hp : Yields p q)
    (hq : ∀ a t, q a t → r a t) : Yields p r :=
  fun c a n h => hq a _ (hp c a n h)

theorem yields_pure (a : α) : Yields (pure a) fun b t => b = a ∧ t = [] := by
  intro c b n h
  cases h
  exact ⟨rfl, rfl⟩

theorem Yields.bind {p : Scan α} {next : α → Scan β} {q : α → List Char → Prop}
    {r : α → β → List Char → Prop} (hp : Yields p q) (hn : ∀ a, Yields (next a) (r a)) :
    Yields (p >>= next) fun b t => ∃ a t₁ t₂, t = t₁ ++ t₂ ∧ q a t₁ ∧ r a b t₂ := by
  intro c b k h
  obtain ⟨a, n, m, h₁, h₂, rfl⟩ := bind_eq_some.1 h
  exact ⟨a, c.ahead.take n, (c.ahead.drop n).take m, List.take_add, hp _ _ _ h₁, hn a _ _ _ h₂⟩

theorem Yields.orElse {p₁ p₂ : Scan α} {q₁ q₂ : α → List Char → Prop} (h₁ : Yields p₁ q₁)
    (h₂ : Yields p₂ q₂) : Yields (p₁.orElse p₂) fun a t => q₁ a t ∨ q₂ a t := by
  intro c a n h
  rcases Option.or_eq_some_iff.1 h with h | ⟨-, h⟩
  · exact .inl (h₁ _ _ _ h)
  · exact .inr (h₂ _ _ _ h)

theorem Yields.written {p : Scan α} {q : α → List Char → Prop} (hp : Yields p q) :
    Yields p.written fun s t => s = t ∧ ∃ a, q a t := by
  intro c s n h
  obtain ⟨⟨a, m⟩, hm, he⟩ := Option.map_eq_some_iff.1 h
  cases he
  exact ⟨rfl, a, hp _ _ _ hm⟩

theorem yields_guard (test : Cursor → Bool) : Yields (guard test) fun _ t => t = [] := by
  intro c a n h
  obtain ⟨-, rfl⟩ := guard_eq_some.1 h
  rfl

theorem yields_one (test : Char → Bool) : Yields (one test) fun _ t => ∃ x, t = [x] ∧ test x := by
  intro c a n h
  obtain ⟨x, rest, he, ht, rfl⟩ := one_eq_some.1 h
  exact ⟨x, by simp [he], ht⟩

private theorem take_length_takeWhile (test : Char → Bool) (l : List Char) :
    l.take (l.takeWhile test).length = l.takeWhile test :=
  (List.prefix_iff_eq_take.1 (List.takeWhile_prefix test)).symm

theorem yields_run (test : Char → Bool) : Yields (run test) fun _ t => t.all test = true := by
  intro c a n h
  rw [run_eq_some.1 h, take_length_takeWhile]
  exact List.all_takeWhile

theorem yields_run₁ (test : Char → Bool) :
    Yields (run₁ test) fun _ t => t.all test = true := by
  intro c a n h
  rw [(run₁_eq_some.1 h).1, take_length_takeWhile]
  exact List.all_takeWhile

theorem yields_letters (w : List Char) :
    Yields (letters w) fun _ t => t.map foldCase = w.map foldCase := by
  intro c a n h
  obtain ⟨he, rfl⟩ := letters_eq_some.1 h
  exact he

theorem yields_anyKeyword (ws : List String) :
    Yields (anyKeyword ws) fun _ t => ∃ w ∈ ws, t.map foldCase = w.toList.map foldCase := by
  induction ws with
  | nil =>
    intro c a n h
    simp [anyKeyword] at h
  | cons w ws ih =>
    intro c a n h
    rcases (yields_letters w.toList).orElse ih _ _ _ h with h | ⟨v, hv, h⟩
    · exact ⟨w, by simp, h⟩
    · exact ⟨v, by simp [hv], h⟩

/-- A word character on exactly one side. -/
def atBoundary (c : Cursor) : Bool :=
  c.before.any isWord != c.ahead.head?.any isWord

theorem advance_zero (c : Cursor) : c.advance 0 = c := by
  simp [Cursor.advance]

theorem advance_add (c : Cursor) (n m : Nat) : c.advance (n + m) = (c.advance n).advance m := by
  simp [Cursor.advance, List.take_add, List.getLast?_append, Option.or_assoc]

theorem wordBoundary_bind {next : Unit → Scan α} {c : Cursor} {a : α} {n : Nat}
    (h : (wordBoundary >>= next) c = some (a, n)) : atBoundary c = true ∧ next () c = some (a, n) := by
  obtain ⟨_, _, _, hb, hn, rfl⟩ := bind_eq_some.1 h
  obtain ⟨ht, rfl⟩ := guard_eq_some.1 hb
  rw [advance_zero] at hn
  exact ⟨ht, by simpa using hn⟩

theorem not_isWord_of_or {c d : Option Char} (h : (c.or d).any isWord = false) :
    c.any isWord = false := by
  cases c with
  | none => rfl
  | some c => exact h

/-- The scanner only stops at such places. -/
def Reaches (stop : Cursor → Prop) (p : Scan α) : Prop :=
  ∀ (c : Cursor) (a : α) (n : Nat), p c = some (a, n) → stop (c.advance n)

variable {stop : Cursor → Prop}

theorem reaches_guard_pure (test : Cursor → Bool) (a : α) :
    Reaches (test · = true) (guard test >>= fun _ => (pure a : Scan α)) := by
  intro c b n h
  obtain ⟨_, _, _, hg, hp, rfl⟩ := bind_eq_some.1 h
  obtain ⟨ht, rfl⟩ := guard_eq_some.1 hg
  cases hp
  rwa [advance_zero]

theorem Reaches.bind {p : Scan α} {next : α → Scan β} (hn : ∀ a, Reaches stop (next a)) :
    Reaches stop (p >>= next) := by
  intro c b k h
  obtain ⟨a, n, m, -, h₂, rfl⟩ := bind_eq_some.1 h
  rw [advance_add]
  exact hn a _ _ _ h₂

theorem Reaches.bind_pure {p : Scan α} (hp : Reaches stop p) (f : α → β) :
    Reaches stop (p >>= fun a => (pure (f a) : Scan β)) := by
  intro c b k h
  obtain ⟨a, n, m, h₁, h₂, rfl⟩ := bind_eq_some.1 h
  cases h₂
  exact hp _ _ _ h₁

theorem Reaches.orElse {p q : Scan α} (hp : Reaches stop p) (hq : Reaches stop q) :
    Reaches stop (p.orElse q) := by
  intro c a n h
  rcases Option.or_eq_some_iff.1 h with h | ⟨-, h⟩
  · exact hp _ _ _ h
  · exact hq _ _ _ h

theorem getLast?_cons_or (x : Char) (front : List Char) (before : Option Char) :
    (x :: front).getLast?.or before = front.getLast?.or (some x) := by
  rw [List.getLast?_cons]
  cases front.getLast? <;> rfl

theorem segmentsFrom_covered (p : Scan α) (covered : Nat) (before : Option Char)
    (text : List Char) :
    segmentsFrom p covered before text =
      segmentsFrom p 0 ((text.take covered).getLast?.or before) (text.drop covered) := by
  induction covered generalizing before text with
  | zero => simp
  | succ n ih =>
    cases text with
    | nil => simp [segmentsFrom]
    | cons x rest =>
      rw [segmentsFrom, ih, List.take_succ_cons, List.drop_succ_cons, getLast?_cons_or]

theorem segmentsFrom_hit {p : Scan α} {before : Option Char} {x : Char} {rest : List Char} {a : α}
    {n : Nat} (h : p ⟨before, x :: rest⟩ = some (a, n + 1)) :
    segmentsFrom p 0 before (x :: rest) =
      .hit ((x :: rest).take (n + 1)) a ::
        segmentsFrom p 0 ((x :: rest).take (n + 1)).getLast? (rest.drop n) := by
  simp only [segmentsFrom, h]
  rw [segmentsFrom_covered p n, List.take_succ_cons, ← getLast?_cons_or x _ none, Option.or_none]

theorem segmentsFrom_append_hit {p : Scan α} {before : Option Char} {t rest : List Char} {a : α}
    (ht : t ≠ []) (h : p ⟨before, t ++ rest⟩ = some (a, t.length)) :
    segmentsFrom p 0 before (t ++ rest) = .hit t a :: segmentsFrom p 0 t.getLast? rest := by
  cases t with
  | nil => exact absurd rfl ht
  | cons x t =>
    have hread : p ⟨before, x :: (t ++ rest)⟩ = some (a, t.length + 1) := h
    rw [List.cons_append, segmentsFrom_hit hread]
    simp

theorem segmentsFrom_plain {p : Scan α} {before : Option Char} {x : Char} {rest : List Char}
    (h : ∀ a n, p ⟨before, x :: rest⟩ ≠ some (a, n + 1)) :
    segmentsFrom p 0 before (x :: rest) = .plain x :: segmentsFrom p 0 (some x) rest := by
  rw [segmentsFrom]
  split
  · next a n he => exact absurd he (h a n)
  · rfl

/-- What holds of nothing, of a text that begins with something that is read if it holds of what is left
behind that, and of any other text if it holds of what is left behind its first character, holds of
every text. -/
@[elab_as_elim]
theorem segmentsFrom_induction (p : Scan α) {motive : Option Char → List Char → Prop}
    (nil : ∀ before, motive before [])
    (hit : ∀ before x rest a n, p ⟨before, x :: rest⟩ = some (a, n + 1) →
      motive ((x :: rest).take (n + 1)).getLast? (rest.drop n) → motive before (x :: rest))
    (plain : ∀ before x rest, (∀ a n, p ⟨before, x :: rest⟩ ≠ some (a, n + 1)) →
      motive (some x) rest → motive before (x :: rest))
    (before : Option Char) (text : List Char) : motive before text := by
  induction hn : text.length using Nat.strongRecOn generalizing before text with
  | ind k ih =>
    subst hn
    cases text with
    | nil => exact nil before
    | cons x rest =>
      by_cases hread : ∃ a n, p ⟨before, x :: rest⟩ = some (a, n + 1)
      · obtain ⟨a, n, hread⟩ := hread
        refine hit before x rest a n hread (ih _ ?_ _ _ rfl)
        rw [List.length_drop, List.length_cons]
        omega
      · exact plain before x rest (fun a n he => hread ⟨a, n, he⟩) (ih _ (by simp) _ _ rfl)

theorem Yields.mem_segmentsFrom {p : Scan α} {q : α → List Char → Prop} (h : Yields p q)
    (covered : Nat) (before : Option Char) (text : List Char) {t : List Char} {a : α}
    (hm : .hit t a ∈ segmentsFrom p covered before text) : q a t := by
  fun_induction segmentsFrom p covered before text with
  | case1 => cases hm
  | case2 _ _ _ _ ih => exact ih hm
  | case3 before x rest a n hit ih =>
    rcases List.mem_cons.1 hm with he | hm
    · cases he
      exact h _ _ _ hit
    · exact ih hm
  | case4 before x rest _ ih => exact ih (by simpa using hm)

theorem substitute_eq_self {p : Scan (List Char)} {text : List Char} (h : p.occurs text = false) :
    p.substitute text = text := by
  have hs : ∀ s ∈ p.segments text, s.replaced = s.text := by
    intro s hs
    have hplain := List.any_eq_false.1 h s hs
    cases s with
    | plain c => rfl
    | hit t m => exact absurd rfl hplain
  rw [substitute]
  conv => rhs; rw [← segments_text p text]
  exact congrArg List.flatten (List.map_congr_left hs)

theorem mem_substitute {p : Scan (List Char)} {d : Char} {text : List Char}
    (h : Yields p fun a t => d ∈ a → d ∈ t) (hd : d ∈ p.substitute text) : d ∈ text := by
  obtain ⟨s, hs, hmem⟩ := List.mem_flatMap.1 hd
  rw [← segments_text p text]
  refine List.mem_flatMap.2 ⟨s, hs, ?_⟩
  cases s with
  | plain c => exact hmem
  | hit t a => exact h.mem_segmentsFrom 0 none text hs hmem

/-- Where all that is put into a text begins with a character, so does what becomes of a text that begins
with it. -/
theorem head?_substitute {p : Scan (List Char)} {d : Char} (h : Yields p fun a _ => a.head? = some d)
    (x : List Char) : (p.substitute (d :: x)).head? = some d := by
  rw [substitute, segments, segmentsFrom]
  split
  · next a n hread =>
    obtain ⟨tail, rfl⟩ := List.head?_eq_some_iff.1 (h _ _ _ hread)
    rfl
  · rfl

theorem infix_of_mem_segments {p : Scan α} {text t : List Char} {a : α}
    (h : .hit t a ∈ p.segments text) : t <:+: text := by
  have hm : t ∈ (p.segments text).map Segment.text := List.mem_map_of_mem (f := Segment.text) h
  have hi := List.infix_of_mem_flatten hm
  rwa [← List.flatMap_def, segments_text] at hi

end ReportMigration.Text.Scan
