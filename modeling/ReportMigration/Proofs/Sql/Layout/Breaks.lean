import ReportMigration.Proofs.Sql.Layout.Clauses
import ReportMigration.Proofs.Sql.Pieces

/-!
# What breaking lines does to white space

The line breaks in front of clauses and list items, in two texts at once: texts that are alike are
broken at the same places, and a place that is broken looks the same afterwards.
-/

namespace ReportMigration.Sql.Layout

open Text Scan

variable {b : Option Char} {c : Char} {g x x' y y' z z' w w' : List Char} {n : Nat}

/-- What becomes of a gap in two texts, with the character in front of it and the number of
characters behind it. Both stay, or the same takes the place of both. Behind all ink a gap that is
not there stays away. -/
inductive Breaks (b : Option Char) (n : Nat) (g h : List Char) : List Char → List Char → Prop
  | keep : Breaks b n g h g h
  | set {t : List Char} (ht : t ≠ []) (hgate : g ≠ [] ∨ b = some ',')
      (hshape : t = indent ∨ 4 ≤ n) : Breaks b n g h t t
  | last {g' h' : List Char} (hn : n = 0) (hg : g = [] → g' = []) (hh : h = [] → h' = []) :
      Breaks b n g h g' h'

theorem Breaks.mono {k : Nat} {g h g' h' : List Char} (hr : Breaks b (n + 1) g h g' h') :
    Breaks b (n + 1 + k) g h g' h' := by
  cases hr with
  | keep => exact .keep
  | set ht hgate hshape => exact .set ht hgate (hshape.imp_right fun hn => by omega)
  | last hn _ _ => exact absurd hn (Nat.succ_ne_zero n)

theorem Breaks.eq_of_nil {g' h' : List Char} (hr : Breaks b n [] [] g' h') : g' = h' := by
  cases hr with
  | keep => rfl
  | set => rfl
  | last _ hg hh => rw [hg rfl, hh rfl]

/-- The items of a list with line breaks between them, from a place in the list on. -/
def listed (p : Place) (text : List Char) : List Char :=
  (Arguments.cut p.quoted p.depth text).1 ++
    (Arguments.cut p.quoted p.depth text).2.flatMap fun item => ',' :: indent ++ trimStart item

theorem listed_blank (hg : g.all isBlank = true) (p : Place) (x : List Char) :
    listed p (g ++ x) = g ++ listed p x := by
  rw [listed, Arguments.cut_append ((inert_of_isBlank hg).walk true p), Arguments.prepend,
    List.append_assoc, listed]

theorem listed_nil (p : Place) : listed p [] = [] := by
  obtain ⟨_ | _, depth⟩ := p <;> rfl

/-- A character stays in its item, or it is a comma with the next item on a line of its own. -/
theorem listed_cons (p : Place) (c : Char) :
    (∃ q, ∀ x, listed p (c :: x) = c :: listed q x) ∨
      (c = ',' ∧ ∃ q, ∀ x, listed p (c :: x) = c :: (indent ++ trimStart (listed q x))) := by
  rcases Arguments.cut_cases p c with ⟨q, -, hcut⟩ | ⟨rfl, rfl⟩
  · refine .inl ⟨q, fun x => ?_⟩
    rw [listed, hcut, Arguments.prepend, List.append_assoc, listed]
    rfl
  · refine .inr ⟨rfl, ⟨false, 0⟩, fun x => ?_⟩
    rw [listed, listed, Arguments.cut_comma, Arguments.pieces, List.flatMap_cons, List.nil_append]
    cases hitems : (Arguments.cut false 0 x).2 with
    | nil => simp
    | cons item items =>
      rw [trimStart_append (by rfl)]
      simp

theorem trimStart_listed (p : Place) (x : List Char) : trimStart (listed p x) = listed p (trimStart x) := by
  rcases blank_or_cell x with hx | ⟨g, c, x, rfl, hg, hc⟩
  · have hl := listed_blank hx p []
    rw [List.append_nil, listed_nil, List.append_nil] at hl
    rw [hl, trimStart_eq_nil hx, listed_nil]
  · rw [listed_blank hg, trimStart, trimStart, List.dropWhile_append_of_pos (by simpa using hg),
      dropWhile_cell hg hc]
    rcases listed_cons p c with ⟨q, hl⟩ | ⟨-, q, hl⟩
    · rw [hl, List.dropWhile_cons_of_neg (by simp [hc])]
    · rw [hl, List.dropWhile_cons_of_neg (by simp [hc])]

theorem respaced_listed (p : Place) (b : Option Char) (hi : ink y = ink x) :
    Respaced Breaks b x y (listed p x) (listed p y) := by
  have hblank : ∀ {g : List Char} {p}, g.all isBlank = true → listed p g = g := by
    intro g p hg
    have hl := listed_blank hg p []
    rwa [List.append_nil, listed_nil, List.append_nil] at hl
  induction x using cell_induction generalizing p b y with
  | blank g hg =>
    have hy : y.all isBlank = true := by rw [← ink_eq_nil, hi, ink_blank hg]
    rw [hblank hg, hblank hy]
    exact .blank hg hy hg hy .keep
  | cell g c x hg hc ih =>
    rw [ink_cell hg hc] at hi
    obtain ⟨h, y, rfl, hh, -, hy⟩ := exists_cell hi
    rw [listed_blank hg, listed_blank hh]
    rcases listed_cons p c with ⟨q, hl⟩ | ⟨rfl, q, hl⟩
    · rw [hl, hl]
      exact (ih q (some c) hy).cell hc hg hh hg hh .keep
    · -- The white space behind the comma gives way to the line break.
      have hrest := (ih q (some ',') hy).regap (g := gap x 0) (h := gap y 0) (all_gap x 0)
        (all_gap y 0) (by decide : indent.all isBlank = true) (by decide : indent.all isBlank = true)
        (.set (by decide) (.inr rfl) (.inl rfl))
      rw [gap_zero, gap_zero, trimStart, trimStart, List.takeWhile_append_dropWhile,
        List.takeWhile_append_dropWhile] at hrest
      rw [hl, hl]
      exact hrest.cell hc hg hh hg hh .keep

/-- The columns of a select list, on a line of their own if they stand behind white space. -/
def columns (rest : List Char) : List Char :=
  (if (trimStart rest).length < rest.length then indent else []) ++
    listed ⟨false, 0⟩ (trimStart rest)

theorem respaced_columns (b : Option Char) (h : Near x y) :
    Respaced Breaks b x y (columns x) (columns y) := by
  have hlead : ∀ t : List Char, ((trimStart t).length < t.length) ↔ gap t 0 ≠ [] := by
    intro t
    have hl := congrArg List.length (List.takeWhile_append_dropWhile (p := isBlank) (l := t))
    rw [List.length_append] at hl
    rw [gap_zero, trimStart, ← List.length_pos_iff]
    omega
  have hall : ∀ t : List Char, (if gap t 0 ≠ [] then indent else []).all isBlank = true := by
    intro t
    split <;> decide
  have hr := (respaced_listed ⟨false, 0⟩ b h.ink_eq).regap (all_gap x 0) (all_gap y 0) (hall x)
    (hall y) ?_
  · rw [gap_zero, gap_zero, trimStart, trimStart, List.takeWhile_append_dropWhile,
      List.takeWhile_append_dropWhile] at hr
    rw [columns, columns, ← trimStart_listed, ← trimStart_listed]
    simp only [hlead]
    exact hr
  · by_cases hn : (ink x).length = 0
    · exact .last hn (fun hg => if_neg (not_not_intro hg)) fun hh => if_neg (not_not_intro hh)
    · have hgap : gap x 0 = [] ↔ gap y 0 = [] := by
        simpa using h.gaps 0 (Nat.pos_of_ne_zero hn)
      by_cases hg : gap x 0 = []
      · rw [if_neg (not_not_intro hg), if_neg (not_not_intro (hgap.1 hg)), hg, hgap.1 hg]
        exact .keep
      · rw [if_pos hg, if_pos (mt hgap.2 hg)]
        exact .set (by decide) (.inl hg) (.inl rfl)

private theorem keywords_quantifier : ∀ w ∈ ["DISTINCT", "ALL"],
    w.toList.all (fun c => c.toNat < 0x80 && isWord c) = true ∧ w.toList ≠ [] := by
  decide

theorem blind_quantifier : Blind quantifier := by
  have hword : Blind (do Scan.anyKeyword ["DISTINCT", "ALL"]; Scan.wordBoundary : Scan Unit) :=
    (blind_anyKeyword fun w hw => (keywords_quantifier w hw).1).bind fun _ => blind_wordBoundary
  refine hword.behind_blanks fun b => ?_
  rw [Option.eq_none_iff_forall_ne_some]
  rintro ⟨u, n⟩ h
  obtain ⟨_, k, m, hk, -, -⟩ := bind_eq_some.1 h
  obtain ⟨w, hw, ht⟩ := yields_anyKeyword _ _ _ _ hk
  rw [List.take_nil, List.map_nil, eq_comm, List.map_eq_nil_iff] at ht
  exact (keywords_quantifier w hw).2 ht

theorem yields_quantifier : Yields quantifier fun _ t => Sealed t := by
  refine ((yields_run₁ _).bind fun _ => (yields_anyKeyword _).bind fun _ => yields_guard _).mono ?_
  rintro _ _ ⟨-, gap, _, rfl, -, -, t, _, rfl, ⟨w, hw, ht⟩, rfl⟩
  obtain ⟨hall, hne⟩ := keywords_quantifier w hw
  have hspells : Spells w t := ht
  have hlast := List.getLast_mem (hspells.ne_nil hne)
  refine sealed_of_getLast ?_
  rw [List.append_nil, List.getLast?_append, List.getLast?_eq_some_getLast (hspells.ne_nil hne)]
  simpa using isBlank_of_isWord (hspells.isWord_of_mem hall hlast)

theorem reflow_eq (body : List Char) :
    reflow body = (cutQuantifier body).1 ++ columns (cutQuantifier body).2 := by
  simp [reflow, columns, listed]

theorem respaced_reflow (b : Option Char) (h : Near x y) :
    Respaced Breaks b x y (reflow x) (reflow y) := by
  rw [reflow_eq, reflow_eq, cutQuantifier, cutQuantifier]
  rcases blind_quantifier none none x y rfl h with ⟨hx, hy⟩ | ⟨u, n, m, hx, hy, hread⟩
  · rw [hx, hy]
    exact respaced_columns b h
  · have hr := (respaced_columns (lastInk b (x.take n)) hread.near).prepend (fun _ _ _ _ => .keep)
      hread.ink_eq (yields_quantifier _ _ _ hx) (yields_quantifier _ _ _ hy)
    rw [List.take_append_drop, List.take_append_drop] at hr
    rw [hx, hy]
    exact hr

def NoClause (text : List Char) : Prop :=
  clauseKeyword ⟨none, text⟩ = none

theorem clause_or_none (h : Near x y) : (NoClause x ∧ NoClause y) ∨
    ∃ v w x' y', x = v ++ x' ∧ y = w ++ y' ∧ ClauseWords v ∧ ClauseWords w ∧ ink w = ink v ∧
      clauseKeyword ⟨none, v ++ x'⟩ = some ((), v.length) ∧
      clauseKeyword ⟨none, w ++ y'⟩ = some ((), w.length) := by
  rcases blind_clauseKeyword none none x y rfl h with hnone | ⟨u, n, m, hx, hy, hread⟩
  · exact .inl hnone
  · have hlen : ∀ {t : List Char} {k}, clauseKeyword ⟨none, t⟩ = some (u, k) →
        k = (t.take k).length := by
      intro t k hk
      have hle := confined_clauseKeyword.within hk
      simpa using hle
    refine .inr ⟨x.take n, y.take m, x.drop n, y.drop m, (List.take_append_drop n x).symm,
      (List.take_append_drop m y).symm, yields_clauseKeyword _ _ _ hx, yields_clauseKeyword _ _ _ hy,
      hread.ink_eq, ?_, ?_⟩
    · rw [List.take_append_drop, ← hlen hx, hx]
    · rw [List.take_append_drop, ← hlen hy, hy]

theorem NoClause.of_near (h : Near x y) (hx : NoClause x) : NoClause y := by
  rcases clause_or_none h with ⟨-, hy⟩ | ⟨v, w, x', y', rfl, -, -, -, -, hread, -⟩
  · exact hy
  · rw [NoClause, hread] at hx
    cases hx

theorem ClauseWords.sealed {w : List Char} (hw : ClauseWords w) : Sealed w := by
  obtain ⟨c, hl, hc⟩ := (Option.any_eq_true _ _).1 hw.shape.2.1
  exact sealed_of_getLast (by simpa [hl] using isBlank_of_isWord hc)

/-- The words of a clause end with a letter, which is their last character other than white space. -/
theorem ClauseWords.exists_getLast {w : List Char} (hw : ClauseWords w) :
    ∃ c, w.getLast? = some c ∧ (∀ b, lastInk b w = some c) ∧ isWord c = true := by
  obtain ⟨c, hc, hword⟩ := (Option.any_eq_true _ _).1 hw.shape.2.1
  obtain ⟨v, rfl⟩ := List.getLast?_eq_some_iff.1 hc
  refine ⟨c, hc, fun b => ?_, hword⟩
  rw [lastInk, ink_append, ink_cons (isBlank_of_isWord hword), ink_nil, List.getLast?_append]
  rfl

theorem ClauseWords.getLast?_eq {v w : List Char} (hv : ClauseWords v) (hw : ClauseWords w)
    (hi : ink w = ink v) : w.getLast? = v.getLast? := by
  obtain ⟨c, hc, hlast, -⟩ := hv.exists_getLast
  obtain ⟨d, hd, hlast', -⟩ := hw.exists_getLast
  rw [hc, hd, ← hlast none, ← hlast' none, lastInk, lastInk, hi]

def Clause.content (clause : Clause) : List Char :=
  if equalIgnoringAsciiCase clause.words "SELECT".toList then reflow clause.body else clause.body

theorem Clause.text_eq (clause : Clause) : clause.text = clause.words ++ clause.content := by
  rw [Clause.text, Clause.content]
  split <;> rfl

theorem isSelect_eq {v w : List Char} (hv : ClauseWords v) (hw : ClauseWords w) (hi : ink w = ink v) :
    equalIgnoringAsciiCase v "SELECT".toList = equalIgnoringAsciiCase w "SELECT".toList := by
  have hself : ∀ {u : List Char}, equalIgnoringAsciiCase u "SELECT".toList = true →
      (ink u).length ≤ 6 := by
    intro u he
    have hmap : u.map asciiLower = "SELECT".toList.map asciiLower := by
      simpa [equalIgnoringAsciiCase] using he
    have hlen : u.length = 6 := by simpa using congrArg List.length hmap
    exact (List.length_filter_le _ u).trans hlen.le
  rw [Bool.eq_iff_iff]
  constructor
  · intro he
    have hlen := hself he
    rwa [← hw.ink_eq_self (hi ▸ hlen), hi, hv.ink_eq_self hlen]
  · intro he
    have hlen := hself he
    rwa [← hv.ink_eq_self (hi ▸ hlen), ← hi, hw.ink_eq_self hlen]

/-- What follows a place in two texts, and what becomes of it: nothing, or clauses on new lines. -/
inductive Follows (b : Option Char) : List Char → List Char → List Char → List Char → Prop
  | nothing : Follows b [] [] [] []
  | lines {z w z' w' : List Char} (hz : gap z 0 ≠ []) (hz' : gap z' 0 = ['\n'])
      (hw' : gap w' 0 = ['\n']) (hn : 4 ≤ (ink z).length) (hr : Respaced Breaks b z w z' w') :
      Follows b z w z' w'

theorem Follows.respaced (hf : Follows (lastInk b x) z w z' w') (hs : z ≠ [] → Sealed x ∧ Sealed y)
    (hr : Respaced Breaks b x y x' y') :
    Respaced Breaks b (x ++ z) (y ++ w) (x' ++ z') (y' ++ w') := by
  cases hf with
  | nothing => simpa using hr
  | lines hz hz' hw' hn hrest =>
    have hne : z ≠ [] := by
      rintro rfl
      exact hz rfl
    obtain ⟨hx, hy⟩ := hs hne
    refine hr.append Breaks.mono hrest ?_
    have hlast := hr.gaps _ le_rfl
    have hy' : gap y (ink x).length = [] := hr.ink_eq ▸ hy
    rw [Nat.sub_self, show gap x (ink x).length = [] from hx, hy'] at hlast
    -- Nothing stood between the texts, so both changed alike there.
    rw [hlast.eq_of_nil, hz', hw', show gap x (ink x).length = [] from hx]
    exact .set (by simp) (.inl hz) (.inr hn)

/-- What stands before the first clause, in the text behind a character. -/
def lead (c : Char) (text : List Char) : List Char :=
  (clausesFrom (some c) text).1

/-- The clauses of the text behind a character, each on a new line. -/
def newLines (c : Char) (text : List Char) : List Char :=
  onNewLines (clausesFrom (some c) text).2

/-- Two texts behind a character that are parted at their first clause. -/
structure Parted (c : Char) (x y z w : List Char) : Prop where
  left : lead c x ++ z = x
  right : lead c y ++ w = y
  alike : Alike (fun _ => True) (some c) (lead c x) (lead c y)
  sealed : z ≠ [] → Sealed (lead c x) ∧ Sealed (lead c y)
  follows : Follows (lastInk (some c) (lead c x)) z w (newLines c x) (newLines c y)

theorem Parted.respaced (hp : Parted c x y z w)
    (hr : Respaced Breaks (some c) (lead c x) (lead c y) x' y') :
    Respaced Breaks (some c) x y (x' ++ newLines c x) (y' ++ newLines c y) := by
  have h := hp.follows.respaced hp.sealed hr
  rwa [hp.left, hp.right] at h

theorem respaced_clause {u v : List Char} (b : Option Char) (hu : ClauseWords u) (hv : ClauseWords v)
    (hi : ink v = ink u) (hc : u.getLast? = some c) (hp : Parted c x y z w) :
    Respaced Breaks b (u ++ x) (v ++ y) (Clause.text ⟨u, lead c x⟩ ++ newLines c x)
      (Clause.text ⟨v, lead c y⟩ ++ newLines c y) := by
  obtain ⟨d, hd, hlast, hword⟩ := hu.exists_getLast
  obtain rfl := Option.some.inj (hd.symm.trans hc)
  have hcontent : Respaced Breaks (some d) (lead d x) (lead d y) (Clause.content ⟨u, lead d x⟩)
      (Clause.content ⟨v, lead d y⟩) := by
    have hcomma : some d ≠ some ',' := by
      rintro he
      rw [Option.some.inj he] at hword
      exact absurd hword (by decide)
    simp only [Clause.content, isSelect_eq hu hv hi]
    split
    · exact respaced_reflow _ (hp.alike.of_ne_comma hcomma)
    · exact .keep (fun _ _ _ _ => .keep) hp.alike.ink_eq
  rw [Clause.text_eq, Clause.text_eq, List.append_assoc, List.append_assoc]
  exact .prepend (fun _ _ _ _ => .keep) hi hu.sealed hv.sealed
    (by rw [hlast]; exact hp.respaced hcontent)

theorem ClauseWords.head_any {u : List Char} (hu : ClauseWords u) (x : List Char) :
    (u ++ x).head?.any (fun c => !isBlank c) = true := by
  have hfirst := hu.shape.1
  cases u with
  | nil => exact absurd hfirst (by decide)
  | cons c u => simpa using isBlank_of_isWord hfirst

theorem Parted.of_clause {e : Char} {g k u v : List Char} (hg : g.all isBlank = true)
    (hk : k.all isBlank = true) (hg₀ : g ≠ []) (hk₀ : k ≠ []) (hu : ClauseWords u)
    (hv : ClauseWords v) (hi : ink v = ink u)
    (hx : clauseKeyword ⟨none, u ++ x⟩ = some ((), u.length))
    (hy : clauseKeyword ⟨none, v ++ y⟩ = some ((), v.length)) (he : u.getLast? = some e)
    (hp : Parted e x y z w) :
    Parted c (g ++ (u ++ x)) (k ++ (v ++ y)) (g ++ (u ++ x)) (k ++ (v ++ y)) := by
  have hev : v.getLast? = some e := (hu.getLast?_eq hv hi).trans he
  have hclause := (respaced_clause (some c) hu hv hi he hp).regap hg hk
    (by decide : ['\n'].all isBlank = true) (by decide : ['\n'].all isBlank = true)
    (.set (by decide) (.inl hg₀) (.inr ?_))
  · have hcx := clausesFrom_hit (b := some c) hg (.inl hg₀) hx
    have hcy := clausesFrom_hit (b := some c) hk (.inl hk₀) hy
    have htext : ∀ {s t r : List Char}, ClauseWords s →
        (Clause.text ⟨s, t⟩ ++ r).head?.any (fun c => !isBlank c) = true := by
      intro s t r hs
      rw [Clause.text_eq, List.append_assoc]
      exact hs.head_any _
    rw [trimStart_eq_self (hu.head_any x), trimStart_eq_self (hv.head_any y),
      trimStart_eq_self (htext hu), trimStart_eq_self (htext hv)] at hclause
    have hlx : lead c (g ++ (u ++ x)) = [] := by rw [lead, hcx]
    have hly : lead c (k ++ (v ++ y)) = [] := by rw [lead, hcy]
    have hnx : newLines c (g ++ (u ++ x)) = ['\n'] ++ (Clause.text ⟨u, lead e x⟩ ++ newLines e x) := by
      rw [newLines, hcx, he]
      simp [onNewLines, lead, newLines]
    have hny : newLines c (k ++ (v ++ y)) = ['\n'] ++ (Clause.text ⟨v, lead e y⟩ ++ newLines e y) := by
      rw [newLines, hcy, hev]
      simp [onNewLines, lead, newLines]
    refine ⟨by rw [hlx, List.nil_append], by rw [hly, List.nil_append],
      by rw [hlx, hly]; exact .refl _ _ _, fun _ => ?_, ?_⟩
    · rw [hlx, hly]
      exact ⟨sealed_nil, sealed_nil⟩
    · rw [hlx, hnx, hny]
      refine .lines ?_ (gap_append_zero (by decide) (htext hu)) (gap_append_zero (by decide) (htext hv))
        ?_ hclause
      · rwa [gap_append_zero hg (hu.head_any x)]
      · have hlen := hu.shape.2.2
        rw [ink_append, ink_append, List.length_append, List.length_append]
        omega
  · have hlen := hu.shape.2.2
    rw [ink_append, List.length_append]
    omega

private theorem Parted.of_blank (hx : x.all isBlank = true) (hy : y.all isBlank = true) :
    Parted c x y [] [] := by
  have hlead : ∀ {t : List Char}, t.all isBlank = true → lead c t = t ∧ newLines c t = [] :=
    fun ht => by simp [lead, newLines, clausesFrom_blank ht, onNewLines]
  obtain ⟨⟨hlx, hnx⟩, hly, hny⟩ := And.intro (hlead hx) (hlead hy)
  refine ⟨by simpa, by simpa, by rw [hlx, hly]; exact .of_blank hx hy, fun hne => absurd rfl hne, ?_⟩
  rw [hnx, hny]
  exact .nothing

/-- A character where no clause begins belongs to what stands before the first clause. -/
private theorem Parted.of_cell {d : Char} {g k : List Char} (hg : g.all isBlank = true)
    (hk : k.all isBlank = true) (hd : isBlank d = false)
    (hgap : (g = [] ↔ k = []) ∨ (some c = some ',' ∧ True))
    (hmiss : (NoClause (d :: x) ∧ NoClause (d :: y)) ∨ (g = [] ∧ k = [])) (hp : Parted d x y z w) :
    Parted c (g ++ d :: x) (k ++ d :: y) z w := by
  have hx := clausesFrom_miss (b := some c) (x := x) hg hd
    (hmiss.imp And.left fun h => ⟨h.1, by simp⟩)
  have hy := clausesFrom_miss (b := some c) (x := y) hk hd
    (hmiss.imp And.right fun h => ⟨h.2, by simp⟩)
  have hlx : lead c (g ++ d :: x) = g ++ d :: lead d x := by rw [lead, hx, lead]
  have hly : lead c (k ++ d :: y) = k ++ d :: lead d y := by rw [lead, hy, lead]
  refine ⟨?_, ?_, ?_, ?_, ?_⟩
  · rw [hlx, List.append_assoc, List.cons_append, hp.left]
  · rw [hly, List.append_assoc, List.cons_append, hp.right]
  · rw [hlx, hly]
    exact hp.alike.cell hg hk hd hgap
  · rw [hlx, hly, sealed_cell hg hd, sealed_cell hk hd]
    exact hp.sealed
  · rw [hlx, lastInk_cell hg hd, newLines, newLines, hx, hy]
    exact hp.follows

theorem exists_parted (h : Alike NoClause (some c) x y) : ∃ z w, Parted c x y z w := by
  induction hn : x.length using Nat.strongRecOn generalizing c x y with
  | ind n ih =>
    subst hn
    rcases blank_or_cell x with hx | ⟨g, d, x, rfl, hg, hd⟩
    · exact ⟨[], [], .of_blank hx (h.blank hx)⟩
    · obtain ⟨k, y, rfl, hk, hgap, hxy⟩ := h.exists_cell hg hd
      have hcell : Alike NoClause none (d :: x) (d :: y) :=
        Alike.cell (g := []) (k := []) hxy rfl rfl hd (.inl Iff.rfl)
      by_cases hmiss : (NoClause (d :: x) ∧ NoClause (d :: y)) ∨ (g = [] ∧ k = [])
      · obtain ⟨z, w, hp⟩ := ih x.length (by simp; omega) hxy rfl
        exact ⟨z, w, hp.of_cell hg hk hd (hgap.imp_right fun h => ⟨h.1, trivial⟩) hmiss⟩
      · obtain ⟨hnone, hne⟩ := not_or.1 hmiss
        obtain ⟨u, v, x', y', hx, hy, hu, hv, hi, hkx, hky⟩ :=
          (clause_or_none (hcell.mono fun _ _ => trivial)).resolve_left hnone
        have hgk : g = [] ↔ k = [] := by
          refine hgap.resolve_right fun hfree => ?_
          rw [NoClause, hx, hkx] at hfree
          cases hfree.2
        have hg₀ : g ≠ [] := fun hg => hne ⟨hg, hgk.1 hg⟩
        obtain ⟨e, he, hlast, -⟩ := hu.exists_getLast
        have hrest : Alike NoClause (some e) x' y' := by
          rw [hx, hy] at hcell
          exact hlast none ▸ hcell.behind hi hu.sealed hv.sealed
        have hlen : x'.length < (g ++ d :: x).length := by
          rw [hx, List.length_append, List.length_append]
          have := List.length_pos_iff.2 hg₀
          omega
        obtain ⟨z, w, hp⟩ := ih x'.length hlen hrest rfl
        rw [hx, hy]
        exact ⟨_, _, .of_clause hg hk hg₀ (mt hgk.2 hg₀) hu hv hi hkx hky he hp⟩

theorem breakClauses_blank (hg : g.all isBlank = true) : breakClauses g = g := by
  have h : clausesOf (clauseStart.segments g) = (g, []) := clausesFrom_blank hg
  simp only [breakClauses, h]
  cases g <;> simp [onNewLines]

theorem breakClauses_miss (hg : g.all isBlank = true) (hc : isBlank c = false)
    (hx : NoClause (c :: x)) :
    breakClauses (g ++ c :: x) = g ++ c :: (lead c x ++ newLines c x) := by
  have h : clausesOf (clauseStart.segments (g ++ c :: x)) = _ :=
    clausesFrom_miss (b := none) hg hc (.inl hx)
  rw [breakClauses, h]
  cases g <;> simp [lead, newLines]

theorem breakClauses_hit {e : Char} {u : List Char} (hg : g.all isBlank = true)
    (hx : clauseKeyword ⟨none, u ++ x⟩ = some ((), u.length)) (he : u.getLast? = some e) :
    breakClauses (g ++ (u ++ x)) = Clause.text ⟨u, lead e x⟩ ++ newLines e x := by
  have h : clausesOf (clauseStart.segments (g ++ (u ++ x))) = _ :=
    clausesFrom_hit (b := none) hg (.inr rfl) hx
  rw [breakClauses, h, he]
  rfl

theorem breakClauses_word {w : List Char} {e : Char} (hw : w.all isWord = true)
    (he : w.getLast? = some e) (hx : NoClause (w ++ x)) :
    breakClauses (w ++ x) = w ++ (lead e x ++ newLines e x) := by
  -- Behind its first character no clause begins in the word.
  have hrest : ∀ {c : Char} {v : List Char}, v.all isWord = true →
      clausesFrom (some c) (v ++ x) = (v ++ (clausesFrom (v.getLast?.or (some c)) x).1,
        (clausesFrom (v.getLast?.or (some c)) x).2) := by
    intro c v hv
    induction v generalizing c with
    | nil => rfl
    | cons d v ih =>
      obtain ⟨hd, hv⟩ : isWord d = true ∧ v.all isWord = true := by simpa using hv
      have hmiss := clausesFrom_miss (b := some c) (g := []) (x := v ++ x) rfl (isBlank_of_isWord hd)
        (.inr ⟨rfl, by simp⟩)
      rw [List.cons_append, getLast?_cons_or, ← List.nil_append (d :: (v ++ x)), hmiss, ih hv]
      rfl
  cases w with
  | nil => cases he
  | cons c v =>
    obtain ⟨hc, hv⟩ : isWord c = true ∧ v.all isWord = true := by simpa using hw
    have hlast : v.getLast?.or (some c) = some e := by
      rw [← getLast?_cons_or c v none, he, Option.some_or]
    have hmiss := breakClauses_miss (g := []) rfl (isBlank_of_isWord hc) hx
    rw [List.nil_append, List.nil_append] at hmiss
    refine hmiss.trans ?_
    simp [lead, newLines, hrest hv, hlast]

theorem breakClauses_word_blank {w : List Char} (hw : w.all isWord = true) (hw₀ : w ≠ [])
    (hg : g.all isBlank = true) (hhead : x.head?.any (fun c => !isBlank c) = true) (hx : NoClause x)
    (hwx : NoClause (w ++ (g ++ x))) :
    breakClauses (w ++ (g ++ x)) = w ++ (g ++ breakClauses x) := by
  cases x with
  | nil => exact absurd hhead (by decide)
  | cons c x =>
    have hc : isBlank c = false := by simpa using hhead
    have hself := breakClauses_miss (g := []) rfl hc hx
    rw [List.nil_append, List.nil_append] at hself
    rw [breakClauses_word hw (List.getLast?_eq_some_getLast hw₀) hwx, hself, lead, newLines,
      clausesFrom_miss hg hc (.inl hx)]
    simp [lead, newLines]

theorem breakClauses_of_word {w : List Char} (hw : w.all isWord = true) (hw₀ : w ≠ [])
    (hx : NoClause w) : breakClauses w = w := by
  have h := breakClauses_word (x := []) hw (List.getLast?_eq_some_getLast hw₀)
    (by rwa [List.append_nil])
  rw [lead, newLines, clausesFrom_blank (g := []) rfl] at h
  simpa [onNewLines] using h

/-- White space at the start goes with a first clause and stays in front of anything else. -/
theorem breakClauses_append (hg : g.all isBlank = true)
    (hx : x.head?.any (fun c => !isBlank c) = true) :
    (¬ NoClause x ∧ breakClauses (g ++ x) = breakClauses x) ∨
      (NoClause x ∧ breakClauses (g ++ x) = g ++ breakClauses x) := by
  cases x with
  | nil => exact absurd hx (by decide)
  | cons c x =>
    have hc : isBlank c = false := by simpa using hx
    have hnear : Near (c :: x) (c :: x) := .refl _ _ _
    rcases clause_or_none hnear with ⟨hnone, -⟩ | ⟨u, _, x', _, hu, -, hwords, -, -, hread, -⟩
    · refine .inr ⟨hnone, ?_⟩
      have hself := breakClauses_miss (g := []) rfl hc hnone
      rw [List.nil_append] at hself
      rw [breakClauses_miss hg hc hnone, hself, List.nil_append]
    · obtain ⟨e, he, -, -⟩ := hwords.exists_getLast
      have hself := breakClauses_hit (g := []) rfl hread he
      rw [List.nil_append] at hself
      rw [hu, breakClauses_hit hg hread he, hself]
      refine .inl ⟨fun hnone => ?_, rfl⟩
      rw [NoClause, hread] at hnone
      cases hnone

/-- Texts that are alike, but for white space that comes behind commas before anything but clauses,
are broken into lines in the same way. -/
theorem respaced_breakClauses (h : Alike NoClause none x y)
    (hx : x.head?.any (fun c => !isBlank c) = true) :
    Respaced Breaks none x y (breakClauses x) (breakClauses y) := by
  cases x with
  | nil => exact absurd hx (by decide)
  | cons c x =>
    have hc : isBlank c = false := by simpa using hx
    obtain ⟨k, y, rfl, hk, hgap, hxy⟩ := Alike.exists_cell (g := []) h rfl hc
    obtain rfl : k = [] := by simpa using hgap
    rw [List.nil_append] at h ⊢
    rcases clause_or_none (h.mono fun _ _ => trivial) with
      ⟨hnx, hny⟩ | ⟨u, v, x', y', hx, hy, hu, hv, hi, hkx, hky⟩
    · obtain ⟨z, w, hp⟩ := exists_parted hxy
      have hbx := breakClauses_miss (g := []) rfl hc hnx
      have hby := breakClauses_miss (g := []) rfl hc hny
      rw [List.nil_append] at hbx hby
      rw [hbx, hby]
      have hrest := hp.respaced (.keep (fun _ _ _ _ => .keep) hp.alike.ink_eq)
      have hnil : ([] : List Char).all isBlank = true := rfl
      exact hrest.cell hc hnil hnil hnil hnil .keep
    · obtain ⟨e, he, hlast, -⟩ := hu.exists_getLast
      rw [hx, hy] at h ⊢
      obtain ⟨z, w, hp⟩ := exists_parted (hlast none ▸ h.behind hi hu.sealed hv.sealed)
      have hbx := breakClauses_hit (g := []) rfl hkx he
      have hby := breakClauses_hit (g := []) rfl hky ((hu.getLast?_eq hv hi).trans he)
      rw [List.nil_append] at hbx hby
      rw [hbx, hby]
      exact respaced_clause none hu hv hi he hp

end ReportMigration.Sql.Layout
