import ReportMigration.Proofs.Text.Confined
import ReportMigration.Proofs.Text.Folding

/-!
# Scanners that look at the next character

How far a scanner looks beyond what it reads. One that foresees a kind of change reads the same text
when what follows is changed in that way behind the next character. Such scanners need no more than
a text of their own to be found in a longer one.
-/

namespace ReportMigration.Text.Scan

variable {α β : Type} {near : Option Char → Option Char → Prop}

/-- What the scanner reads does not depend on what follows, as long as the next characters are
related. -/
def Foresees (near : Option Char → Option Char → Prop) (p : Scan α) : Prop :=
  ∀ (b : Option Char) (t r r' : List Char) (a : α), near r.head? r'.head? →
    p ⟨b, t ++ r⟩ = some (a, t.length) → p ⟨b, t ++ r'⟩ = some (a, t.length)

/-- The scanner never succeeds without reading. -/
def Moves (p : Scan α) : Prop :=
  ∀ (c : Cursor) (a : α) (n : Nat), p c = some (a, n) → 0 < n

/-- The same character, or none of a word on either side. -/
def Outside (c d : Option Char) : Prop :=
  c = d ∨ (c.any isWord = false ∧ d.any isWord = false)

theorem Outside.refl (c : Option Char) : Outside c c :=
  .inl rfl

theorem Outside.isWord {c d : Option Char} (h : Outside c d) : c.any isWord = d.any isWord := by
  rcases h with rfl | ⟨hc, hd⟩
  · rfl
  · rw [hc, hd]

theorem moves_one (test : Char → Bool) : Moves (one test) := by
  intro c a n h
  obtain ⟨x, rest, -, -, rfl⟩ := one_eq_some.1 h
  exact Nat.one_pos

theorem moves_run₁ (test : Char → Bool) : Moves (run₁ test) :=
  fun _ _ _ h => (run₁_eq_some.1 h).2

theorem moves_letters {w : List Char} (hw : w ≠ []) : Moves (letters w) := by
  intro c a n h
  obtain ⟨-, rfl⟩ := letters_eq_some.1 h
  exact List.length_pos_iff.2 hw

theorem moves_anyKeyword {ws : List String} (hw : ∀ w ∈ ws, w.toList ≠ []) :
    Moves (anyKeyword ws) := by
  induction ws with
  | nil => exact fun _ _ _ h => absurd h (by simp [anyKeyword])
  | cons w ws ih =>
    obtain ⟨hw, hws⟩ := List.forall_mem_cons.1 hw
    intro c a n h
    rcases Option.or_eq_some_iff.1 h with h | ⟨-, h⟩
    · exact moves_letters hw _ _ _ h
    · exact ih hws _ _ _ h

theorem Moves.written {p : Scan α} (h : Moves p) : Moves p.written := by
  intro c a n he
  obtain ⟨⟨u, m⟩, hm, he⟩ := Option.map_eq_some_iff.1 he
  cases he
  exact h _ _ _ hm

theorem Moves.bind {p : Scan α} (hp : Moves p) (next : α → Scan β) : Moves (p >>= next) := by
  intro c b k h
  obtain ⟨a, n, m, h₁, -, rfl⟩ := bind_eq_some.1 h
  have hn := hp _ _ _ h₁
  omega

theorem Moves.of_bind {p : Scan α} {next : α → Scan β} (hn : ∀ a, Moves (next a)) :
    Moves (p >>= next) := by
  intro c b k h
  obtain ⟨a, n, m, -, h₂, rfl⟩ := bind_eq_some.1 h
  have hm := hn a _ _ _ h₂
  omega

theorem foresees_pure (a : α) : Foresees near (pure a : Scan α) := by
  intro b t r r' a' _ h
  obtain ⟨rfl, ht⟩ := Prod.mk.inj (Option.some.inj h)
  obtain rfl := List.eq_nil_of_length_eq_zero ht.symm
  rfl

theorem foresees_wordBoundary : Foresees Outside wordBoundary := by
  intro b t r r' a hn h
  obtain ⟨ht, hl⟩ := guard_eq_some.1 h
  obtain rfl := List.eq_nil_of_length_eq_zero hl
  refine guard_eq_some.2 ⟨?_, rfl⟩
  simp only [List.nil_append] at ht ⊢
  rwa [← hn.isWord]

theorem foresees_one (test : Char → Bool) : Foresees near (one test) := by
  intro b t r r' a _ h
  obtain ⟨x, rest, he, ht, hl⟩ := one_eq_some.1 h
  obtain ⟨y, rfl⟩ := List.length_eq_one_iff.1 hl
  obtain rfl : y = x := by simpa using congrArg List.head? he
  exact one_eq_some.2 ⟨y, r', rfl, ht, rfl⟩

theorem foresees_letters (w : List Char) : Foresees near (letters w) := by
  intro b t r r' a _ h
  obtain ⟨hw, hl⟩ := letters_eq_some.1 h
  refine letters_eq_some.2 ⟨?_, hl⟩
  simp only [List.take_left' hl] at hw ⊢
  exact hw

private theorem length_takeWhile_append {test : Char → Bool} {t r r' : List Char}
    (hr : r.head? = r'.head?) (h : ((t ++ r).takeWhile test).length = t.length) :
    ((t ++ r').takeWhile test).length = t.length := by
  induction t with
  | nil =>
    cases r with
    | nil =>
      cases r' with
      | nil => rfl
      | cons d r' => cases hr
    | cons c r =>
      cases r' with
      | nil => cases hr
      | cons d r' =>
        obtain rfl : c = d := by simpa using hr
        cases hc : test c with
        | true => simp [hc] at h
        | false => simp [hc]
  | cons x t ih =>
    cases hx : test x with
    | false => simp [hx] at h
    | true =>
      simp only [List.cons_append, List.takeWhile_cons, hx, if_true, List.length_cons] at h ⊢
      rw [ih (Nat.succ.inj h)]

theorem foresees_run (test : Char → Bool) : Foresees (· = ·) (run test) := by
  intro b t r r' a hr h
  exact run_eq_some.2 (length_takeWhile_append hr (run_eq_some.1 h).symm).symm

theorem foresees_run₁ (test : Char → Bool) : Foresees (· = ·) (run₁ test) := by
  intro b t r r' a hr h
  obtain ⟨hl, hpos⟩ := run₁_eq_some.1 h
  exact run₁_eq_some.2 ⟨(length_takeWhile_append hr hl.symm).symm, hpos⟩

theorem Foresees.written {p : Scan α} (hp : Foresees near p) : Foresees near p.written := by
  intro b t r r' a hn h
  obtain ⟨⟨u, m⟩, hm, he⟩ := Option.map_eq_some_iff.1 h
  obtain ⟨rfl, rfl⟩ := Prod.mk.inj he
  refine Option.map_eq_some_iff.2 ⟨(u, t.length), hp _ _ _ _ _ hn hm, ?_⟩
  simp

/-- Both scanners foresee the change behind the second, which the first one sees unless the second
reads something. -/
private theorem foresees_bind {near' : Option Char → Option Char → Prop} {p : Scan α}
    {next : α → Scan β} (hp : Foresees near' p) (hn : ∀ a, Foresees near (next a))
    (hsee : ∀ {a c b t r r'}, next a c = some (b, List.length t) → near r.head? r'.head? →
      near' (t ++ r).head? (t ++ r').head?) : Foresees near (p >>= next) := by
  intro b t r r' x hnear h
  obtain ⟨a, n, m, h₁, h₂, hl⟩ := bind_eq_some.1 h
  have hle : n ≤ t.length := by omega
  have hsplit : ∀ u : List Char, t ++ u = t.take n ++ (t.drop n ++ u) := by
    intro u
    rw [← List.append_assoc, List.take_append_drop]
  have hn₁ : n = (t.take n).length := by simp [hle]
  have hm₂ : m = (t.drop n).length := by simp only [List.length_drop]; omega
  simp only [Cursor.advance, List.take_append_of_le_length hle,
    List.drop_append_of_le_length hle] at h₂
  rw [hm₂] at h₂
  have h₁' : p ⟨b, t.take n ++ (t.drop n ++ r)⟩ = some (a, (t.take n).length) := by
    rw [← hsplit, ← hn₁, h₁]
  have hfirst := hp _ _ _ _ _ (hsee h₂ hnear) h₁'
  rw [← hsplit, ← hn₁] at hfirst
  refine bind_eq_some.2 ⟨a, n, m, hfirst, ?_, hl⟩
  simp only [Cursor.advance, List.take_append_of_le_length hle,
    List.drop_append_of_le_length hle]
  rw [hm₂]
  exact hn a _ _ _ _ _ hnear h₂

theorem Foresees.bind_moves {p : Scan α} {next : α → Scan β} (hp : Foresees (· = ·) p)
    (hn : ∀ a, Foresees near (next a)) (hm : ∀ a, Moves (next a)) :
    Foresees near (p >>= next) := by
  refine foresees_bind hp hn fun {a c b t r r'} h _ => ?_
  have hpos := hm a _ _ _ h
  cases t with
  | nil => exact absurd hpos (by decide)
  | cons x t => rfl

theorem Foresees.bind {p : Scan α} {next : α → Scan β} (hrefl : ∀ c, near c c)
    (hp : Foresees near p) (hn : ∀ a, Foresees near (next a)) : Foresees near (p >>= next) := by
  refine foresees_bind hp hn fun {a c b t r r'} _ hnear => ?_
  cases t with
  | nil => exact hnear
  | cons x t => exact hrefl _

theorem Foresees.orElse {p q : Scan α} (hp : Foresees near p) (hq : Foresees near q)
    (hnone : ∀ {b t r r' a}, near r.head? r'.head? → q ⟨b, t ++ r⟩ = some (a, t.length) →
      p ⟨b, t ++ r⟩ = none → p ⟨b, t ++ r'⟩ = none) : Foresees near (p.orElse q) := by
  intro b t r r' a hn h
  rcases Option.or_eq_some_iff.1 h with h | ⟨hp', hq'⟩
  · exact Option.or_eq_some_iff.2 (.inl (hp _ _ _ _ _ hn h))
  · exact Option.or_eq_some_iff.2 (.inr ⟨hnone hn hq' hp', hq _ _ _ _ _ hn hq'⟩)

/-- A single character in front of other text is all that the first scanner looks at. -/
theorem Foresees.one_orElse {test : Char → Bool} {q : Scan Unit} (hq : Foresees near q)
    (hm : Moves q) : Foresees near ((one test).orElse q) := by
  refine Foresees.orElse (foresees_one test) hq fun {b t r r' a} _ h hnone => ?_
  have hpos := hm _ _ _ h
  cases t with
  | nil => exact absurd hpos (by decide)
  | cons x t => exact hnone

theorem foresees_letter {c : Char} (hc : isWord c = true ∧ c.toNat < 0x80) :
    Foresees Outside ((letters [c]).orElse (pure ())) := by
  refine (foresees_letters [c]).orElse (foresees_pure ()) fun {b t r r' a} hn h hnone => ?_
  obtain ⟨-, ht⟩ := Prod.mk.inj (Option.some.inj h)
  obtain rfl := List.eq_nil_of_length_eq_zero ht.symm
  rw [Option.eq_none_iff_forall_ne_some] at hnone ⊢
  rintro ⟨u, n⟩ hl
  obtain ⟨hr', rfl⟩ := letters_eq_some.1 hl
  rw [List.nil_append] at hr' hnone
  cases r' with
  | nil => cases hr'
  | cons d r' =>
    have hd : foldCase d = foldCase c := by simpa using hr'
    have hword : isWord d = true := isWord_of_foldCase_eq hd hc.2 hc.1
    rcases hn with he | ⟨-, hout⟩
    · cases r with
      | nil => cases he
      | cons x r =>
        obtain rfl : x = d := by simpa using he
        exact hnone ((), 1) (letters_eq_some.2 ⟨by simpa using hd, rfl⟩)
    · simp [hword] at hout

/-- Keywords that begin with different letters do not stand in each other's way. -/
theorem foresees_anyKeyword {ws : List String}
    (hw : (ws.map fun w => w.toList.head?.map foldCase).Nodup)
    (hne : ∀ w ∈ ws, w.toList ≠ []) : Foresees near (anyKeyword ws) := by
  induction ws with
  | nil => exact fun _ _ _ _ _ _ h => absurd h (by simp [anyKeyword])
  | cons w ws ih =>
    obtain ⟨hdiff, hws⟩ := List.nodup_cons.1 hw
    obtain ⟨hw, hne⟩ := List.forall_mem_cons.1 hne
    refine (foresees_letters w.toList).orElse (ih hws hne) fun {b t r r' a} _ h _ => ?_
    obtain ⟨v, hv, hspell⟩ := yields_anyKeyword ws _ _ _ h
    rw [List.take_left' rfl] at hspell
    rw [Option.eq_none_iff_forall_ne_some]
    rintro ⟨u, n⟩ hl
    obtain ⟨hr', -⟩ := letters_eq_some.1 hl
    refine hdiff (List.mem_map.2 ⟨v, hv, ?_⟩)
    have hvne := hne v hv
    cases t with
    | nil => exact absurd (List.map_eq_nil_iff.1 hspell.symm) hvne
    | cons x t =>
      cases hwl : w.toList with
      | nil => exact absurd hwl hw
      | cons y w' =>
        rw [hwl] at hr'
        cases hvl : v.toList with
        | nil => exact absurd hvl hvne
        | cons z v' =>
          rw [hvl] at hspell
          simp only [List.cons_append, List.length_cons, List.take_succ_cons, List.map_cons,
            List.cons.injEq] at hr' hspell
          simp [hwl, ← hr'.1, ← hspell.1]

variable {p : Scan α} {d : Char}

private theorem forall_place_cons {P : Option Char → List Char → Prop} {before : Option Char}
    {x : Char} {text : List Char} :
    (∀ front rest, x :: text = front ++ rest → P (front.getLast?.or before) rest) ↔
      P before (x :: text) ∧
        ∀ front rest, text = front ++ rest → P (front.getLast?.or (some x)) rest := by
  constructor
  · intro h
    refine ⟨h [] (x :: text) rfl, fun front rest he => ?_⟩
    rw [← getLast?_cons_or x front before]
    exact h (x :: front) rest (by rw [he]; rfl)
  · rintro ⟨hfirst, hbehind⟩ front rest he
    cases front with
    | nil =>
      obtain rfl : x :: text = rest := he
      exact hfirst
    | cons y front =>
      obtain ⟨rfl, htail⟩ := List.cons.inj he
      rw [getLast?_cons_or]
      exact hbehind front rest htail

/-- A text is cut into its characters, where the scanner reads nothing, or it is cut behind the first
text that the scanner reads. -/
theorem segmentsFrom_cases (h : Confined d p) (before : Option Char) (text : List Char) :
    (segmentsFrom p 0 before text = text.map .plain ∧
      ∀ front rest, text = front ++ rest → rest ≠ [] → ∀ a n,
        p ⟨front.getLast?.or before, rest⟩ ≠ some (a, n + 1)) ∨
    ∃ front t back a, text = front ++ (t ++ back) ∧ t ≠ [] ∧
      p ⟨front.getLast?.or before, t ++ back⟩ = some (a, t.length) ∧
      segmentsFrom p 0 before text =
        front.map .plain ++ .hit t a :: segmentsFrom p 0 t.getLast? back ∧
      ∀ front' rest, front = front' ++ rest → rest ≠ [] → ∀ a n,
        p ⟨front'.getLast?.or before, rest ++ (t ++ back)⟩ ≠ some (a, n + 1) := by
  induction before, text using segmentsFrom_induction p with
  | nil before =>
    refine .inl ⟨rfl, fun front rest he hne => ?_⟩
    exact absurd (List.append_eq_nil_iff.1 he.symm).2 hne
  | hit before x text a n hit _ =>
    have hle : n ≤ text.length := Nat.le_of_succ_le_succ (h.within hit)
    refine .inr ⟨[], (x :: text).take (n + 1), text.drop n, a, ?_, by simp, ?_,
      segmentsFrom_hit hit, ?_⟩
    · simp
    · simpa [hle] using hit
    · intro front' rest he hne
      exact absurd (List.append_eq_nil_iff.1 he.symm).2 hne
  | plain before x text hplain ih =>
    rcases ih with ⟨hs, hnone⟩ | ⟨front, t, back, a, rfl, hne, ht, hs, hnone⟩
    · refine .inl ⟨by rw [segmentsFrom_plain hplain, hs]; rfl, ?_⟩
      exact (forall_place_cons (P := fun b rest => rest ≠ [] → ∀ a n,
        p ⟨b, rest⟩ ≠ some (a, n + 1))).2 ⟨fun _ => hplain, hnone⟩
    · refine .inr ⟨x :: front, t, back, a, rfl, hne, by rwa [getLast?_cons_or], ?_, ?_⟩
      · rw [segmentsFrom_plain hplain, hs]
        rfl
      · exact (forall_place_cons (P := fun b rest => rest ≠ [] → ∀ a n,
          p ⟨b, rest ++ (t ++ back)⟩ ≠ some (a, n + 1))).2 ⟨fun _ => hplain, hnone⟩

/-- What becomes of a text behind a character. Where nothing is read it stays as it is; otherwise the
first text that is read gives way to its meaning, and what stands behind it is read in the same way. -/
inductive Substitutes (p : Scan (List Char)) : Option Char → List Char → List Char → Prop
  | nowhere {before : Option Char} {text : List Char}
      (none : ∀ front rest, text = front ++ rest → rest ≠ [] → ∀ a n,
        p ⟨front.getLast?.or before, rest⟩ ≠ some (a, n + 1)) : Substitutes p before text text
  | first {before : Option Char} {front t back a out : List Char} (ne : t ≠ [])
      (read : p ⟨front.getLast?.or before, t ++ back⟩ = some (a, t.length))
      (none : ∀ front' rest, front = front' ++ rest → rest ≠ [] → ∀ a n,
        p ⟨front'.getLast?.or before, rest ++ (t ++ back)⟩ ≠ some (a, n + 1))
      (behind : Substitutes p t.getLast? back out) :
      Substitutes p before (front ++ (t ++ back)) (front ++ (a ++ out))

theorem Confined.substitutes {p : Scan (List Char)} (h : Confined d p) (before : Option Char)
    (text : List Char) :
    Substitutes p before text ((segmentsFrom p 0 before text).flatMap Segment.replaced) := by
  induction hn : text.length using Nat.strongRecOn generalizing before text with
  | ind k ih =>
    subst hn
    rcases segmentsFrom_cases h before text with
      ⟨hs, hnone⟩ | ⟨front, t, back, a, rfl, hne, ht, hs, hnone⟩
    · have hout : (segmentsFrom p 0 before text).flatMap Segment.replaced = text := by
        simp [hs, Segment.replaced, List.flatMap_map]
      rw [hout]
      exact .nowhere hnone
    · have hlen : back.length < (front ++ (t ++ back)).length := by
        have := List.length_pos_iff.2 hne
        simp only [List.length_append]
        omega
      have hout : (segmentsFrom p 0 before (front ++ (t ++ back))).flatMap Segment.replaced =
          front ++ (a ++ (segmentsFrom p 0 t.getLast? back).flatMap Segment.replaced) := by
        simp [hs, Segment.replaced, List.flatMap_map]
      rw [hout]
      exact .first hne ht hnone (ih _ hlen _ back rfl)

/-- A scanner that occurs in a text reads something at a place of it, and where it does not occur it
reads nothing at any place. -/
theorem occurs_iff (h : Confined d p) (text : List Char) : p.occurs text = true ↔
    ∃ front t back a, text = front ++ (t ++ back) ∧ t ≠ [] ∧
      p ⟨front.getLast?, t ++ back⟩ = some (a, t.length) := by
  rw [occurs, segments]
  rcases segmentsFrom_cases h none text with ⟨hs, hnone⟩ | ⟨front, t, back, a, he, hne, ht, hs, -⟩
  · rw [hs]
    constructor
    · intro hany
      simp [Segment.isHit] at hany
    · rintro ⟨front, t, back, a, he, hne, ht⟩
      obtain ⟨n, hn⟩ := Nat.exists_eq_succ_of_ne_zero (List.length_pos_iff.2 hne).ne'
      rw [hn] at ht
      exact absurd (by simpa using ht) (hnone front (t ++ back) he (by simp [hne]) a n)
  · rw [hs]
    refine iff_of_true (by simp [Segment.isHit]) ⟨front, t, back, a, he, hne, by simpa using ht⟩

/-- A scanner that never reads nothing occurs nowhere in a text exactly if it fails at every place of
it. -/
theorem occurs_eq_false_iff (hp : Yields p fun _ hit => hit ≠ []) (text : List Char) :
    p.occurs text = false ↔
      ∀ front rest, text = front ++ rest → p ⟨front.getLast?, rest⟩ = none := by
  have hnone : ∀ {c : Cursor}, (∀ a n, p c ≠ some (a, n + 1)) ↔ p c = none := by
    intro c
    rw [Option.eq_none_iff_forall_ne_some]
    refine ⟨fun h ⟨a, n⟩ he => ?_, fun h a n => h (a, n + 1)⟩
    cases n with
    | zero => exact hp c a 0 he (List.take_zero ..)
    | succ n => exact h a n he
  have hend : ∀ before, p ⟨before, []⟩ = none :=
    fun before => hnone.1 fun a n he => hp _ a _ he (List.take_nil ..)
  have hfrom : ∀ before, (segmentsFrom p 0 before text).any Segment.isHit = false ↔
      ∀ front rest, text = front ++ rest → p ⟨front.getLast?.or before, rest⟩ = none := by
    intro before
    induction before, text using segmentsFrom_induction p with
    | nil before =>
      refine iff_of_true rfl fun front rest he => ?_
      obtain ⟨rfl, rfl⟩ := List.append_eq_nil_iff.1 he.symm
      exact hend _
    | hit before x text a n hit _ =>
      rw [forall_place_cons (P := fun b rest => p ⟨b, rest⟩ = none), ← hnone]
      exact iff_of_false (by simp [segmentsFrom_hit hit, Segment.isHit]) fun h => h.1 a n hit
    | plain before x text hplain ih =>
      rw [forall_place_cons (P := fun b rest => p ⟨b, rest⟩ = none), ← ih,
        segmentsFrom_plain hplain, List.any_cons, Segment.isHit, Bool.false_or]
      exact (and_iff_right (hnone.1 hplain)).symm
  simpa [occurs, segments] using hfrom none

theorem Confined.occurs_append (h : Confined d p) (hd : isWord d = false) (x z : List Char) :
    p.occurs (x ++ d :: z) = (p.occurs x || p.occurs z) := by
  have hb : (some d).any isWord = none.any isWord := by simp [hd]
  rw [occurs, segments, h.segmentsFrom_append, h.segmentsFrom_beside hb]
  simp [occurs, segments, Segment.isHit]

end ReportMigration.Text.Scan
