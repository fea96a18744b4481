import ReportMigration.Proofs.Sql.Nesting
import ReportMigration.Proofs.Text.Lookahead
import ReportMigration.Sql.Standard

/-!
# The phrases of the standard patterns

The patterns for dates read phrases that begin with the word CURRENT and end with a word. A phrase
and what takes its place hold nothing that opens or closes a parenthesis or a literal for good, so
these patterns substitute between parentheses piece by piece.
-/

namespace ReportMigration.Sql

open Text Scan

/-- The characters that have a meaning for calls. -/
def separators : List Char := ['\'', '(', ')', ',']

theorem Avoids.inert {text : List Char} (h : Avoids separators text) : Inert text := by
  intro c hc
  refine ⟨?_, ?_, ?_, ?_⟩ <;> rintro rfl <;> exact h _ hc (by decide)

/-- The parts of a date offset. -/
structure Offset where
  current : List Char
  gap : List Char
  date : List Char
  signs : List Char
  count : List Char
  space : List Char
  unit : List Char
  plural : List Char
  sign : Char

def Offset.phrase (o : Offset) : List Char :=
  o.current ++ (o.gap ++ (o.date ++ (o.signs ++ (o.count ++ (o.space ++ (o.unit ++ o.plural))))))

def Offset.meaning (o : Offset) : List Char :=
  intervalOffset [o.sign] (o.count, o.unit.map asciiLower)

def isSign (c : Char) : Bool :=
  isBlank c || c == '+' || c == '-'

/-- The parts are what their names say. -/
structure Offset.Valid (o : Offset) : Prop where
  current : Spells "CURRENT" o.current
  gap : o.gap.all (fun c => isBlank c || c == '_') = true
  date : Spells "DATE" o.date
  signs : o.signs.all isSign = true
  count : o.count.all isDecimalDigit = true
  space : o.space.all isBlank = true
  unit : ∃ w ∈ ["DAY", "MONTH", "YEAR"], Spells w o.unit
  plural : Spells "S" o.plural ∨ o.plural = []
  sign : o.sign = '+' ∨ o.sign = '-'

theorem yields_currentDate : Yields currentDate fun _ t => ∃ cur gap date,
    t = cur ++ (gap ++ date) ∧ Spells "CURRENT" cur ∧
      gap.all (fun c => isBlank c || c == '_') = true ∧ Spells "DATE" date := by
  refine ((yields_guard _).bind fun _ => (yields_letters _).bind fun _ =>
    ((yields_one _).orElse (yields_run₁ _)).bind fun _ => yields_letters _).mono ?_
  rintro _ t ⟨-, _, _, rfl, rfl, -, cur, _, rfl, hcur, -, gap, date, rfl, hgap, hdate⟩
  refine ⟨cur, gap, date, rfl, hcur, ?_, hdate⟩
  rcases hgap with ⟨x, rfl, hx⟩ | hgap
  · simpa using Or.inr hx
  · rw [List.all_eq_true] at hgap ⊢
    intro c hc
    rw [hgap c hc, Bool.true_or]

theorem yields_duration : Yields duration fun a t => ∃ count space unit plural,
    t = count ++ (space ++ (unit ++ plural)) ∧ count.all isDecimalDigit = true ∧
      space.all isBlank = true ∧ (∃ w ∈ ["DAY", "MONTH", "YEAR"], Spells w unit) ∧
      (Spells "S" plural ∨ plural = []) ∧ a = (count, unit.map asciiLower) := by
  refine ((yields_run₁ _).written.bind fun count => (yields_run _).bind fun _ =>
    (yields_anyKeyword _).written.bind fun unit =>
      ((yields_letters _).orElse (yields_pure ())).bind fun _ =>
        (yields_guard _).bind fun _ => yields_pure (count, unit.map asciiLower)).mono ?_
  rintro a t ⟨count, _, _, rfl, ⟨rfl, -, hcount⟩, -, space, _, rfl, hspace, unit, _, _, rfl,
    ⟨rfl, -, hunit⟩, _, plural, _, rfl, hplural, -, _, _, rfl, rfl, rfl, rfl⟩
  refine ⟨_, space, _, plural, by simp, hcount, hspace, hunit, ?_, rfl⟩
  rcases hplural with h | ⟨-, h⟩
  · exact .inl h
  · exact .inr h

theorem yields_signFoldedOffset : Yields signFoldedOffset fun a t =>
    ∃ o : Offset, o.Valid ∧ t = o.phrase ∧ a = o.meaning := by
  refine (yields_currentDate.bind fun _ => (yields_run _).bind fun _ => (yields_one _).bind fun _ =>
    (yields_run _).bind fun _ => (yields_one _).bind fun _ => (yields_run _).bind fun _ =>
      yields_duration.bind fun amount => yields_pure (intervalOffset ['-'] amount)).mono ?_
  rintro a t ⟨-, _, _, rfl, ⟨cur, gap, date, rfl, hcur, hgap, hdate⟩, -, b₁, _, rfl, hb₁, -, _, _,
    rfl, ⟨x, rfl, hx⟩, -, b₂, _, rfl, hb₂, -, _, _, rfl, ⟨y, rfl, hy⟩, -, b₃, _, rfl, hb₃, _, _, _,
    rfl, ⟨count, space, unit, plural, rfl, hcount, hspace, hunit, hplural, rfl⟩, rfl, rfl⟩
  refine ⟨⟨cur, gap, date, b₁ ++ x :: (b₂ ++ y :: b₃), count, space, unit, plural, '-'⟩,
    ⟨hcur, hgap, hdate, ?_, hcount, hspace, hunit, hplural, .inr rfl⟩, ?_, rfl⟩
  · simp only [List.all_eq_true] at hb₁ hb₂ hb₃
    simp only [List.all_append, List.all_cons, Bool.and_eq_true, List.all_eq_true]
    grind [isSign]
  · simp [Offset.phrase]

theorem yields_dateOffset : Yields dateOffset fun a t =>
    ∃ o : Offset, o.Valid ∧ t = o.phrase ∧ a = o.meaning := by
  refine (yields_currentDate.bind fun _ => (yields_run _).bind fun _ =>
    (yields_one _).written.bind fun sign => (yields_run _).bind fun _ =>
      yields_duration.bind fun amount => yields_pure (intervalOffset sign amount)).mono ?_
  rintro a t ⟨-, _, _, rfl, ⟨cur, gap, date, rfl, hcur, hgap, hdate⟩, -, b₁, _, rfl, hb₁, _, _, _,
    rfl, ⟨rfl, -, x, rfl, hx⟩, -, b₂, _, rfl, hb₂, _, _, _,
    rfl, ⟨count, space, unit, plural, rfl, hcount, hspace, hunit, hplural, rfl⟩, rfl, rfl⟩
  refine ⟨⟨cur, gap, date, b₁ ++ x :: b₂, count, space, unit, plural, x⟩,
    ⟨hcur, hgap, hdate, ?_, hcount, hspace, hunit, hplural, by simpa using hx⟩, ?_, rfl⟩
  · simp only [List.all_eq_true] at hb₁ hb₂
    simp only [List.all_append, List.all_cons, Bool.and_eq_true, List.all_eq_true]
    grind [isSign]
  · simp [Offset.phrase]

theorem yields_currentTimestamp : Yields currentTimestamp fun a t => ∃ cur gap ts,
    t = cur ++ (gap ++ ts) ∧ Spells "CURRENT" cur ∧ gap.all isBlank = true ∧
      Spells "TIMESTAMP" ts ∧ a = "now()".toList := by
  refine ((yields_guard _).bind fun _ => (yields_letters _).bind fun _ =>
    (yields_run₁ _).bind fun _ => (yields_letters _).bind fun _ =>
      (yields_guard _).bind fun _ => yields_pure _).mono ?_
  rintro a t ⟨-, _, _, rfl, rfl, -, cur, _, rfl, hcur, -, gap, _, rfl, hgap, -, ts, _, rfl, hts, -,
    _, _, rfl, rfl, rfl, rfl⟩
  exact ⟨cur, gap, ts, by simp, hcur, hgap, hts, rfl⟩

/-- A phrase and what takes its place. -/
structure Phrase (hit meaning : List Char) : Prop where
  /-- The first letter is a C, and the only one; a U follows. -/
  first : ∃ c t, hit = c :: t ∧ isWord c = true ∧ 'u' ∈ t.map foldCase ∧ Avoids ['c'] t
  last : hit.getLast?.any isWord = true
  inert : Inert hit
  neutral : Neutral meaning
  ending : meaning.getLast?.any (fun c => !isWord c && !isBlank c) = true

private theorem phrase_of_spells {cur middle final meaning : List Char} {w : String}
    (hcur : Spells "CURRENT" cur) (hmiddle : Avoids ('c' :: separators) middle)
    (hfinal : Spells w final) (hw : Avoids ('c' :: separators) w.toList)
    (hword : w.toList.all (fun c => c.toNat < 0x80 && isWord c) = true) (hne : w.toList ≠ [])
    (hneutral : Neutral meaning)
    (hending : meaning.getLast?.any (fun c => !isWord c && !isBlank c) = true) :
    Phrase (cur ++ (middle ++ final)) meaning where
  first := by
    cases cur with
    | nil => exact absurd rfl (hcur.ne_nil (by decide))
    | cons c cur =>
      have hc : isWord c = true := hcur.isWord_of_mem (by decide) List.mem_cons_self
      have ht : Spells "URRENT" cur := (List.cons.inj hcur).2
      refine ⟨c, cur ++ (middle ++ final), rfl, hc, ?_, ?_⟩
      · rw [List.map_append, show cur.map foldCase = _ from ht]
        exact List.mem_append_left _ (by decide)
      · exact (ht.avoids (by decide)).append
          ((hmiddle.mono (by decide)).append ((hfinal.avoids hw).mono (by decide)))
  last := by
    have hl := hfinal.ne_nil hne
    rw [← List.append_assoc, List.getLast?_append, List.getLast?_eq_some_getLast hl, Option.some_or]
    exact hfinal.isWord_of_mem hword (List.getLast_mem hl)
  inert := Avoids.inert ((hcur.avoids (by decide)).append
    ((hmiddle.mono (by decide)).append ((hfinal.avoids hw).mono (by decide))))
  neutral := hneutral
  ending := hending

private theorem units : ∀ w ∈ ["DAY", "MONTH", "YEAR"], Avoids ('c' :: separators) w.toList ∧
    w.toList.all (fun c => c.toNat < 0x80 && isWord c) = true ∧ w.toList ≠ [] := by
  decide

theorem intervalOffset_eq (sign count unit : List Char) :
    intervalOffset sign (count, unit) = "current_date ".toList ++ (sign ++ (" INTERVAL ".toList ++
      ('\'' :: (count ++ ([' '] ++ unit) ++ ['\''])))) := by
  have hs : " INTERVAL '".toList = " INTERVAL ".toList ++ ['\''] := rfl
  unfold intervalOffset
  rw [hs]
  simp only [List.append_assoc, List.cons_append, List.nil_append]

theorem Offset.Valid.neutral {o : Offset} (h : o.Valid) : Neutral o.meaning := by
  have hcount : Inert o.count := Avoids.inert (avoids_of_all (by decide +kernel) h.count)
  obtain ⟨w, hw, hunit⟩ := h.unit
  have hunit : Avoids separators o.unit := (hunit.avoids (units w hw).1).mono (by decide)
  have hlower : Inert (o.unit.map asciiLower) := by
    intro c hc
    refine ⟨?_, ?_, ?_, ?_⟩ <;> rintro rfl <;>
      exact hunit.notMem_map_asciiLower (by decide) (by decide) hc
  have hsign : Inert [o.sign] := by
    rcases h.sign with hs | hs <;> rw [hs] <;> decide
  have hspace : Inert [' '] := by decide
  have hinside : Inert (o.count ++ ([' '] ++ o.unit.map asciiLower)) :=
    List.forall_mem_append.2 ⟨hcount, List.forall_mem_append.2 ⟨hspace, hlower⟩⟩
  have h₁ : Neutral "current_date ".toList := Inert.neutral (by decide)
  have h₂ : Neutral " INTERVAL ".toList := Inert.neutral (by decide)
  unfold Offset.meaning
  rw [intervalOffset_eq]
  exact h₁.append (hsign.neutral.append (h₂.append (neutral_quoted hinside)))

theorem Offset.Valid.phrase {o : Offset} (h : o.Valid) : Phrase o.phrase o.meaning := by
  obtain ⟨w, hw, hunit⟩ := h.unit
  have hending : o.meaning.getLast?.any (fun c => !isWord c && !isBlank c) = true := by
    unfold Offset.meaning intervalOffset
    rw [List.getLast?_concat]
    decide
  have hmiddle : Avoids ('c' :: separators) (o.gap ++ (o.date ++ (o.signs ++ (o.count ++ o.space)))) :=
    (avoids_of_all (by decide +kernel) h.gap).append ((h.date.avoids (by decide)).append
      ((avoids_of_all (by decide +kernel) h.signs).append
        ((avoids_of_all (by decide +kernel) h.count).append
          (avoids_of_all (by decide +kernel) h.space))))
  rcases h.plural with hs | hs
  · have hunit : Avoids ('c' :: separators) o.unit := hunit.avoids (units w hw).1
    have hp := phrase_of_spells h.current (hmiddle.append hunit) hs (by decide) (by decide)
      (by decide) h.neutral hending
    simpa [Offset.phrase] using hp
  · have hp := phrase_of_spells h.current hmiddle hunit (units w hw).1 (units w hw).2.1
      (units w hw).2.2 h.neutral hending
    simpa [Offset.phrase, hs] using hp

def marks : List Char := [';', '\'', '(', ')', ',']

/-- A pattern that reads phrases, from one word boundary to another. -/
structure Phrasal (p : Scan (List Char)) : Prop where
  confined : ∀ d ∈ marks, Confined d p
  phrase : Yields p fun meaning hit => Phrase hit meaning
  starts : ∀ {c a n}, p c = some (a, n) → atBoundary c = true
  halts : Reaches (atBoundary · = true) p

private theorem marks_spared : ∀ d ∈ marks, isWord d = false ∧ isBlank d = false ∧
    isDecimalDigit d = false ∧ (d == '_') = false ∧ (d == '+') = false ∧ (d == '-') = false ∧
    ∀ w ∈ ["CURRENT", "DATE", "TIMESTAMP", "DAY", "MONTH", "YEAR", "S"],
      foldCase d ∉ w.toList.map foldCase := by
  intro d hd
  simp only [marks, List.mem_cons, List.not_mem_nil, or_false] at hd
  rcases hd with rfl | rfl | rfl | rfl | rfl <;> decide +kernel

theorem isWord_of_mem_marks {d : Char} (hd : d ∈ marks) : isWord d = false :=
  (marks_spared d hd).1

private theorem confined_currentDate {d : Char} (hd : d ∈ marks) : Confined d currentDate := by
  obtain ⟨hw, hb, -, hu, -, -, hk⟩ := marks_spared d hd
  exact (Confined.wordBoundary hw).bind fun _ => (Confined.letters (hk _ (by decide))).bind fun _ =>
    ((Confined.one (by exact hu)).orElse (Confined.run₁ hb)).bind fun _ => Confined.letters (hk _ (by decide))

private theorem confined_duration {d : Char} (hd : d ∈ marks) : Confined d duration := by
  obtain ⟨hw, hb, hn, -, -, -, hk⟩ := marks_spared d hd
  exact (Confined.run₁ hn).written.bind fun _ => (Confined.run hb).bind fun _ =>
    (Confined.anyKeyword fun w h => hk w (by revert w; decide)).written.bind fun _ =>
      ((Confined.letters (hk _ (by decide))).orElse (Confined.pure ())).bind fun _ =>
        (Confined.wordBoundary hw).bind fun _ => Confined.pure _

private theorem halts_duration : Reaches (atBoundary · = true) duration :=
  Reaches.bind fun _ => Reaches.bind fun _ => Reaches.bind fun _ => Reaches.bind fun _ =>
    reaches_guard_pure _ _

theorem phrasal_signFoldedOffset : Phrasal signFoldedOffset where
  confined d hd := by
    obtain ⟨hw, hb, hn, -, hp, hm, hk⟩ := marks_spared d hd
    exact (confined_currentDate hd).bind fun _ => (Confined.run hb).bind fun _ =>
      (Confined.one (by exact hp)).bind fun _ => (Confined.run hb).bind fun _ => (Confined.one (by exact hm)).bind fun _ =>
        (Confined.run hb).bind fun _ => (confined_duration hd).bind fun _ => Confined.pure _
  phrase := yields_signFoldedOffset.mono fun a t ⟨o, ho, ht, ha⟩ => ht ▸ ha ▸ ho.phrase
  starts h := by
    obtain ⟨_, _, _, hd, -⟩ := bind_eq_some.1 h
    exact (wordBoundary_bind hd).1
  halts := Reaches.bind fun _ => Reaches.bind fun _ => Reaches.bind fun _ => Reaches.bind fun _ =>
    Reaches.bind fun _ => Reaches.bind fun _ => halts_duration.bind_pure _

theorem phrasal_dateOffset : Phrasal dateOffset where
  confined d hd := by
    obtain ⟨hw, hb, hn, -, hp, hm, hk⟩ := marks_spared d hd
    exact (confined_currentDate hd).bind fun _ => (Confined.run hb).bind fun _ =>
      (Confined.one (by rw [hp, hm]; rfl)).written.bind fun _ => (Confined.run hb).bind fun _ =>
        (confined_duration hd).bind fun _ => Confined.pure _
  phrase := yields_dateOffset.mono fun a t ⟨o, ho, ht, ha⟩ => ht ▸ ha ▸ ho.phrase
  starts h := by
    obtain ⟨_, _, _, hd, -⟩ := bind_eq_some.1 h
    exact (wordBoundary_bind hd).1
  halts := Reaches.bind fun _ => Reaches.bind fun _ => Reaches.bind fun _ => Reaches.bind fun _ =>
    halts_duration.bind_pure _

theorem neutral_now : Neutral "now()".toList := by
  rintro commas ⟨quoted, depth⟩
  cases quoted <;> rfl

theorem phrasal_currentTimestamp : Phrasal currentTimestamp where
  confined d hd := by
    obtain ⟨hw, hb, -, -, -, -, hk⟩ := marks_spared d hd
    exact (Confined.wordBoundary hw).bind fun _ => (Confined.letters (hk _ (by decide))).bind fun _ =>
      (Confined.run₁ hb).bind fun _ => (Confined.letters (hk _ (by decide))).bind fun _ =>
        (Confined.wordBoundary hw).bind fun _ => Confined.pure _
  phrase := yields_currentTimestamp.mono fun a t ⟨cur, gap, ts, ht, hcur, hgap, hts, ha⟩ =>
    ht ▸ ha ▸ phrase_of_spells hcur (avoids_of_all (by decide +kernel) hgap) hts (by decide)
      (by decide) (by decide) neutral_now (by decide)
  starts h := (wordBoundary_bind h).1
  halts := Reaches.bind fun _ => Reaches.bind fun _ => Reaches.bind fun _ => Reaches.bind fun _ =>
    reaches_guard_pure _ _

theorem Phrasal.boundaries {p : Scan (List Char)} (h : Phrasal p) {b : Option Char}
    {t r a : List Char} (hr : p ⟨b, t ++ r⟩ = some (a, t.length)) :
    b.any isWord = false ∧ r.head?.any isWord = false := by
  have hphrase := h.phrase _ _ _ hr
  have hstart := h.starts hr
  have hhalt := h.halts _ _ _ hr
  rw [List.take_left' rfl] at hphrase
  constructor
  · obtain ⟨c, u, rfl, hc, -⟩ := hphrase.first
    simpa [atBoundary, hc] using hstart
  · obtain ⟨c, hl, hlast⟩ := (Option.any_eq_true _ _).1 hphrase.last
    simp only [atBoundary, Cursor.advance, List.take_left' rfl, List.drop_left' rfl, hl,
      Option.some_or, Option.any_some, hlast] at hhalt
    simpa using hhalt

theorem Phrasal.substitutes {p : Scan (List Char)} (h : Phrasal p) (text : List Char) :
    Substitutes p none text (p.substitute text) :=
  (h.confined ';' (by decide)).substitutes none text

end ReportMigration.Sql
