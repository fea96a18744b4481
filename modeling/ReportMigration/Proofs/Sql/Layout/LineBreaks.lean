import ReportMigration.Proofs.Sql.Layout.BlankRuns

/-!
# Line breaks in a row

The line breaks at the start of a text are counted from its end to its start. The reader of runs finds
as many as are counted, so that cutting runs down is a recursion over the text.
-/

namespace ReportMigration.Sql.Layout

open Text Scan

variable {c : Char} {pad run text x : List Char}

def isPad (c : Char) : Bool :=
  c == ' ' || c == '\t'

/-- Spaces and tabs, with a carriage return or without, and a line feed. -/
def IsLineBreak (text : List Char) : Prop :=
  ∃ pad, pad.all isPad = true ∧ (text = pad ++ ['\n'] ∨ text = pad ++ ['\r', '\n'])

/-- Three line breaks in a row. -/
def IsLongRun (text : List Char) : Prop :=
  ∃ x y z, text = x ++ (y ++ z) ∧ IsLineBreak x ∧ IsLineBreak y ∧ IsLineBreak z

/-- Somewhere in the text there are three line breaks in a row. -/
def LongRun (text : List Char) : Prop :=
  ∃ run, IsLongRun run ∧ run <:+: text

/-- How many line breaks follow each other at the start of a text. -/
def breaksAhead : List Char → ℕ
  | [] => 0
  | c :: rest =>
    if c = '\n' then breaksAhead rest + 1
    else if isPad c then breaksAhead rest
    else if c = '\r' ∧ rest.head? = some '\n' then breaksAhead rest
    else 0

def behindBreaks : List Char → List Char
  | [] => []
  | c :: rest => if breaksAhead (c :: rest) = 0 then c :: rest else behindBreaks rest

theorem breaksAhead_feed (rest : List Char) : breaksAhead ('\n' :: rest) = breaksAhead rest + 1 := rfl

theorem ne_feed_of_isPad (hc : isPad c = true) : c ≠ '\n' := by
  rintro rfl
  exact absurd hc (by decide)

theorem breaksAhead_pad (hc : isPad c = true) (rest : List Char) :
    breaksAhead (c :: rest) = breaksAhead rest := by
  rw [breaksAhead, if_neg (ne_feed_of_isPad hc), if_pos hc]

theorem breaksAhead_return (rest : List Char) :
    breaksAhead ('\r' :: rest) = if rest.head? = some '\n' then breaksAhead rest else 0 := by
  simp [breaksAhead, isPad]

theorem breaksAhead_other (hn : c ≠ '\n') (hp : isPad c = false) (hr : c ≠ '\r') (rest : List Char) :
    breaksAhead (c :: rest) = 0 := by
  simp [breaksAhead, hn, hp, hr]

theorem behindBreaks_of_eq_zero (h : breaksAhead text = 0) : behindBreaks text = text := by
  cases text with
  | nil => rfl
  | cons c rest => rw [behindBreaks, if_pos h]

theorem behindBreaks_cons (h : breaksAhead (c :: text) ≠ 0) :
    behindBreaks (c :: text) = behindBreaks text := by
  rw [behindBreaks, if_neg h]

theorem breaksAhead_behindBreaks (text : List Char) : breaksAhead (behindBreaks text) = 0 := by
  induction text with
  | nil => rfl
  | cons c rest ih =>
    rw [behindBreaks]
    split
    · assumption
    · exact ih

theorem breaksAhead_blanks (hp : pad.all isPad = true) (rest : List Char) :
    breaksAhead (pad ++ rest) = breaksAhead rest := by
  induction pad with
  | nil => rfl
  | cons c pad ih =>
    obtain ⟨hc, hpad⟩ : isPad c = true ∧ pad.all isPad = true := by simpa using hp
    rw [List.cons_append, breaksAhead_pad hc, ih hpad]

theorem behindBreaks_blanks (hp : pad.all isPad = true) (h : 0 < breaksAhead text) :
    behindBreaks (pad ++ text) = behindBreaks text := by
  induction pad with
  | nil => rfl
  | cons c pad ih =>
    have hcount := breaksAhead_blanks hp text
    obtain ⟨-, hpad⟩ : isPad c = true ∧ pad.all isPad = true := by simpa using hp
    rw [List.cons_append] at hcount ⊢
    rw [behindBreaks_cons (by omega), ih hpad]

theorem IsLineBreak.append (h : IsLineBreak x) (rest : List Char) :
    breaksAhead (x ++ rest) = breaksAhead rest + 1 ∧ behindBreaks (x ++ rest) = behindBreaks rest := by
  have hfeed : 0 < breaksAhead (['\n'] ++ rest) := Nat.succ_pos _
  have hreturn : 0 < breaksAhead (['\r', '\n'] ++ rest) := Nat.succ_pos _
  obtain ⟨pad, hp, rfl | rfl⟩ := h
  · rw [List.append_assoc, breaksAhead_blanks hp, behindBreaks_blanks hp hfeed]
    exact ⟨rfl, rfl⟩
  · rw [List.append_assoc, breaksAhead_blanks hp, behindBreaks_blanks hp hreturn]
    exact ⟨rfl, rfl⟩

theorem exists_lineBreak (h : 0 < breaksAhead text) : ∃ x rest, IsLineBreak x ∧ text = x ++ rest := by
  induction text with
  | nil => exact absurd h (Nat.lt_irrefl 0)
  | cons c rest ih =>
    by_cases hn : c = '\n'
    · subst hn
      exact ⟨['\n'], rest, ⟨[], rfl, .inl rfl⟩, rfl⟩
    cases hp : isPad c with
    | true =>
      rw [breaksAhead_pad hp] at h
      obtain ⟨x, rest, ⟨pad, hpad, hx⟩, rfl⟩ := ih h
      refine ⟨c :: x, rest, ⟨c :: pad, by simp [hp, hpad], ?_⟩, rfl⟩
      rcases hx with rfl | rfl
      · exact .inl rfl
      · exact .inr rfl
    | false =>
      by_cases hr : c = '\r'
      · subst hr
        rw [breaksAhead_return] at h
        split at h
        · next hhead =>
          obtain ⟨rest, rfl⟩ := List.head?_eq_some_iff.1 hhead
          exact ⟨['\r', '\n'], rest, ⟨[], rfl, .inr rfl⟩, rfl⟩
        · exact absurd h (Nat.lt_irrefl 0)
      · rw [breaksAhead_other hn hp hr] at h
        exact absurd h (Nat.lt_irrefl 0)

theorem IsLongRun.breaksAhead_append (h : IsLongRun run) (rest : List Char) :
    3 ≤ breaksAhead (run ++ rest) := by
  obtain ⟨x, y, z, rfl, hx, hy, hz⟩ := h
  rw [List.append_assoc, List.append_assoc, (hx.append _).1, (hy.append _).1, (hz.append _).1]
  omega

theorem exists_isLongRun (h : 3 ≤ breaksAhead text) :
    ∃ run rest, IsLongRun run ∧ text = run ++ rest := by
  obtain ⟨x, text, hx, rfl⟩ := exists_lineBreak (show 0 < breaksAhead text by omega)
  rw [(hx.append _).1] at h
  obtain ⟨y, text, hy, rfl⟩ := exists_lineBreak (show 0 < breaksAhead text by omega)
  rw [(hy.append _).1] at h
  obtain ⟨z, text, hz, rfl⟩ := exists_lineBreak (show 0 < breaksAhead text by omega)
  exact ⟨x ++ (y ++ z), text, ⟨x, y, z, rfl, hx, hy, hz⟩, by simp⟩

theorem longRun_iff : LongRun text ↔ ∃ tail, tail <:+ text ∧ 3 ≤ breaksAhead tail := by
  constructor
  · rintro ⟨run, hrun, front, back, rfl⟩
    exact ⟨run ++ back, ⟨front, by simp⟩, hrun.breaksAhead_append back⟩
  · rintro ⟨tail, ⟨front, rfl⟩, h⟩
    obtain ⟨run, rest, hrun, rfl⟩ := exists_isLongRun h
    exact ⟨run, hrun, front, rest, by simp⟩

theorem lineBreak_append (h : IsLineBreak x) (b : Option Char) (rest : List Char) :
    lineBreak ⟨b, x ++ rest⟩ = some ((), x.length) := by
  have hpads : ∀ {pad tail : List Char}, pad.all isPad = true → tail.head?.any isPad = false →
      Scan.run isPad ⟨b, pad ++ tail⟩ = some ((), pad.length) := by
    intro pad tail hp ht
    rw [run_eq_some, List.takeWhile_append_of_pos (by simpa using hp)]
    cases tail with
    | nil => simp
    | cons c tail => rw [List.takeWhile_cons_of_neg (by simpa using ht), List.append_nil]
  obtain ⟨pad, hp, rfl | rfl⟩ := h
  · rw [List.append_assoc]
    exact bind_eq_some.2 ⟨(), pad.length, 1, hpads hp rfl, by simp [Cursor.advance]; rfl, by simp⟩
  · rw [List.append_assoc]
    exact bind_eq_some.2 ⟨(), pad.length, 2, hpads hp rfl, by simp [Cursor.advance]; rfl, by simp⟩

theorem yields_lineBreak : Yields lineBreak fun _ t => IsLineBreak t := by
  refine ((yields_run _).bind fun _ => ((yields_one _).orElse (yields_pure ())).bind fun _ =>
    yields_one _).mono ?_
  rintro _ _ ⟨-, pad, _, rfl, hp, -, _, _, rfl, ⟨r, rfl, hr⟩ | ⟨-, rfl⟩, n, rfl, hn⟩
  · obtain rfl : r = '\r' := by simpa using hr
    obtain rfl : n = '\n' := by simpa using hn
    exact ⟨pad, hp, .inr rfl⟩
  · obtain rfl : n = '\n' := by simpa using hn
    exact ⟨pad, hp, .inl rfl⟩

theorem lineBreak_eq_none (h : breaksAhead text = 0) (b : Option Char) :
    lineBreak ⟨b, text⟩ = none := by
  rw [Option.eq_none_iff_forall_ne_some]
  rintro ⟨u, n⟩ hread
  have hcount := ((yields_lineBreak _ _ _ hread).append (text.drop n)).1
  rw [List.take_append_drop, h] at hcount
  exact absurd hcount (Nat.succ_ne_zero _).symm

theorem lineBreaks_eq {most : ℕ} (h : breaksAhead text ≤ most) (b : Option Char) :
    ∃ n, lineBreaks most ⟨b, text⟩ = some (breaksAhead text, n) ∧ text.drop n = behindBreaks text := by
  induction most generalizing text b with
  | zero =>
    have hzero := Nat.le_zero.1 h
    exact ⟨0, by rw [hzero]; rfl, (behindBreaks_of_eq_zero hzero).symm⟩
  | succ most ih =>
    rcases Nat.eq_zero_or_pos (breaksAhead text) with hzero | hpos
    · refine ⟨0, ?_, (behindBreaks_of_eq_zero hzero).symm⟩
      rw [lineBreaks, Scan.orElse, bind_apply, lineBreak_eq_none hzero, hzero]
      rfl
    · obtain ⟨x, rest, hx, rfl⟩ := exists_lineBreak hpos
      obtain ⟨hcount, hbehind⟩ := hx.append rest
      rw [hcount] at h ⊢
      obtain ⟨n, hn, hdrop⟩ := ih (Nat.le_of_succ_le_succ h) (x.getLast?.or b)
      refine ⟨x.length + n, ?_, by rw [hbehind, ← hdrop, List.drop_append]; simp⟩
      have hmap : ((· + 1) <$> lineBreaks most) ⟨x.getLast?.or b, rest⟩ =
          some (breaksAhead rest + 1, n) :=
        bind_eq_some.2 ⟨_, n, 0, hn, rfl, rfl⟩
      have hread : (do lineBreak; (· + 1) <$> lineBreaks most : Scan ℕ) ⟨b, x ++ rest⟩ =
          some (breaksAhead rest + 1, x.length + n) :=
        bind_eq_some.2 ⟨(), x.length, n, lineBreak_append hx b rest,
          by simpa [Cursor.advance] using hmap, rfl⟩
      rw [lineBreaks, Scan.orElse, hread]
      rfl

theorem breaksAhead_le (text : List Char) : breaksAhead text ≤ (text.takeWhile isBreakChar).length := by
  induction text with
  | nil => exact Nat.zero_le _
  | cons c rest ih =>
    cases hc : isBreakChar c with
    | true =>
      rw [List.takeWhile_cons_of_pos hc, List.length_cons, breaksAhead]
      split_ifs <;> omega
    | false =>
      simp only [isBreakChar, Bool.or_eq_false_iff, beq_eq_false_iff_ne] at hc
      obtain ⟨⟨⟨hs, ht⟩, hr⟩, hn⟩ := hc
      rw [breaksAhead_other hn (by simp [isPad, hs, ht]) hr]
      exact Nat.zero_le _

theorem blankRun_eq (b : Option Char) (text : List Char) : ∃ n, text.drop n = behindBreaks text ∧
    blankRun ⟨b, text⟩ = if 3 ≤ breaksAhead text then some (['\n', '\n'], n) else none := by
  obtain ⟨n, hn, hdrop⟩ := lineBreaks_eq (breaksAhead_le text) b
  exact ⟨n, hdrop, by rw [blankRun, hn]⟩

theorem exists_feed (h : 0 < breaksAhead text) : ∃ front, text = front ++ '\n' :: behindBreaks text := by
  induction text with
  | nil => exact absurd h (Nat.lt_irrefl 0)
  | cons c rest ih =>
    rw [behindBreaks_cons h.ne']
    rcases Nat.eq_zero_or_pos (breaksAhead rest) with hzero | hpos
    · have hc : c = '\n' := by
        by_contra hn
        rw [breaksAhead, if_neg hn, hzero] at h
        simp at h
      exact ⟨[], by rw [hc, behindBreaks_of_eq_zero hzero]; rfl⟩
    · obtain ⟨front, hfront⟩ := ih hpos
      exact ⟨c :: front, by rw [List.cons_append, ← hfront]⟩

theorem length_behindBreaks (h : 0 < breaksAhead text) : (behindBreaks text).length < text.length := by
  obtain ⟨front, hfront⟩ := exists_feed h
  have hlen := congrArg List.length hfront
  rw [List.length_append, List.length_cons] at hlen
  omega

theorem blankRuns_run (h : 3 ≤ breaksAhead text) :
    blankRun.substitute text = '\n' :: '\n' :: blankRun.substitute (behindBreaks text) := by
  obtain ⟨n, hdrop, hread⟩ := blankRun_eq none text
  have hshort := length_behindBreaks (show 0 < breaksAhead text by omega)
  rw [if_pos h] at hread
  cases text with
  | nil => exact absurd hshort (Nat.lt_irrefl 0)
  | cons c rest =>
    cases n with
    | zero =>
      rw [← hdrop] at hshort
      exact absurd hshort (Nat.lt_irrefl _)
    | succ n =>
      rw [List.drop_succ_cons] at hdrop
      rw [substitute, segments, segmentsFrom_hit hread, hdrop, segmentsFrom_blankRun, List.flatMap_cons]
      rfl

theorem blankRuns_plain (h : breaksAhead (c :: text) < 3) :
    blankRun.substitute (c :: text) = c :: blankRun.substitute text := by
  obtain ⟨n, -, hread⟩ := blankRun_eq none (c :: text)
  rw [if_neg (by omega)] at hread
  rw [substitute, segments, segmentsFrom_plain (by simp [hread]), segmentsFrom_blankRun,
    List.flatMap_cons]
  rfl

/-- What holds of nothing, of a run in front of a text and of any other character in front of a text if
it holds of that text, holds of every text. -/
@[elab_as_elim]
theorem run_induction {P : List Char → Prop} (nil : P [])
    (run : ∀ text, 3 ≤ breaksAhead text → P (behindBreaks text) → P text)
    (plain : ∀ c text, breaksAhead (c :: text) < 3 → P text → P (c :: text)) (text : List Char) :
    P text := by
  induction hn : text.length using Nat.strongRecOn generalizing text with
  | ind n ih =>
    subst hn
    by_cases h : 3 ≤ breaksAhead text
    · exact run text h (ih _ (length_behindBreaks (by omega)) _ rfl)
    · cases text with
      | nil => exact nil
      | cons c text => exact plain c text (by omega) (ih _ (by simp) _ rfl)

end ReportMigration.Sql.Layout
