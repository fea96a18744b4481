import ReportMigration.Proofs.Sql.Phrase
import ReportMigration.Proofs.Text.Trim

/-!
# Where the patterns for dates occur

A phrase of these patterns stands alone: whether a pattern reads it depends on nothing but the word
boundaries around it. So the patterns leave no phrase behind, and a text that is put next to another
brings in none unless the phrase reaches from the one into the other.
-/

namespace ReportMigration.Sql

open Text Scan

/-- In front of every A stands something other than white space. -/
def Clear (text : List Char) : Prop :=
  ∀ u c v, text = u ++ c :: v → foldCase c = 'a' → u.getLast?.any (fun d => !isBlank d) = true

theorem Clear.append {s t : List Char} (hs : Clear s) (ht : Clear t) : Clear (s ++ t) := by
  intro u c v he hc
  rcases List.append_eq_append_iff.1 he with ⟨x, rfl, hx⟩ | ⟨x, rfl, hx⟩
  · exact getLast?_append_any (ht x c v hx hc)
  · cases x with
    | nil =>
      have hlast := ht [] c v (by simpa using hx.symm) hc
      simp at hlast
    | cons d x =>
      obtain ⟨rfl, -⟩ := List.cons.inj hx
      exact hs u c x rfl hc

theorem clear_of_avoids {text : List Char} (h : Avoids ['a'] text) : Clear text := by
  rintro u c v rfl hc
  exact absurd (by simp [hc]) (h c (by simp))

theorem clear_of_spells {word : String} {text : List Char} (h : Spells word text)
    (hword : word.toList.all (fun c => c.toNat < 0x80 && isWord c) = true)
    (hfirst : word.toList.head?.map foldCase ≠ some 'a') : Clear text := by
  rintro u c v rfl hc
  cases hl : u.getLast? with
  | none =>
    obtain rfl := List.getLast?_eq_none_iff.1 hl
    refine absurd ?_ hfirst
    rw [← List.head?_map, ← show List.map foldCase _ = _ from h]
    simp [hc]
  | some d =>
    have hd : d ∈ u ++ c :: v := List.mem_append_left _ (List.mem_of_getLast? hl)
    simpa using isBlank_of_isWord (h.isWord_of_mem hword hd)

/-- What the letters of a phrase have in common. -/
structure Worded (hit : List Char) : Prop where
  head : hit.head?.map foldCase = some 'c'
  spares : Avoids ['w'] hit
  clear : Clear hit

private theorem head_of_spells {cur : List Char} (h : Spells "CURRENT" cur) (rest : List Char) :
    (cur ++ rest).head?.map foldCase = some 'c' := by
  cases cur with
  | nil => exact absurd rfl (h.ne_nil (by decide))
  | cons c cur =>
    have hc : foldCase c = 'c' := (List.cons.inj h).1
    simp [hc]

private theorem units_worded : ∀ w ∈ ["DAY", "MONTH", "YEAR"], Avoids ['w'] w.toList ∧
    w.toList.all (fun c => c.toNat < 0x80 && isWord c) = true ∧
    w.toList.head?.map foldCase ≠ some 'a' := by
  decide

theorem Offset.Valid.worded {o : Offset} (h : o.Valid) : Worded o.phrase := by
  obtain ⟨w, hw, hunit⟩ := h.unit
  obtain ⟨hspares, hword, hfirst⟩ := units_worded w hw
  have hplural : Avoids ['w'] o.plural ∧ Clear o.plural := by
    rcases h.plural with hs | hs
    · exact ⟨hs.avoids (by decide), clear_of_spells hs (by decide) (by decide)⟩
    · rw [hs]
      exact ⟨by decide, clear_of_avoids (by decide)⟩
  refine ⟨head_of_spells h.current _, ?_, ?_⟩
  · exact (h.current.avoids (by decide)).append ((avoids_of_all (by decide +kernel) h.gap).append
      ((h.date.avoids (by decide)).append ((avoids_of_all (by decide +kernel) h.signs).append
        ((avoids_of_all (by decide +kernel) h.count).append
          ((avoids_of_all (by decide +kernel) h.space).append
            ((hunit.avoids hspares).append hplural.1))))))
  · exact (clear_of_spells h.current (by decide) (by decide)).append
      ((clear_of_avoids (avoids_of_all (by decide +kernel) h.gap)).append
        ((clear_of_spells h.date (by decide) (by decide)).append
          ((clear_of_avoids (avoids_of_all (by decide +kernel) h.signs)).append
            ((clear_of_avoids (avoids_of_all (by decide +kernel) h.count)).append
              ((clear_of_avoids (avoids_of_all (by decide +kernel) h.space)).append
                ((clear_of_spells hunit hword hfirst).append hplural.2))))))

theorem yields_currentTimestamp_worded : Yields currentTimestamp fun _ t => Worded t := by
  refine yields_currentTimestamp.mono ?_
  rintro _ t ⟨cur, gap, ts, rfl, hcur, hgap, hts, -⟩
  refine ⟨head_of_spells hcur _, ?_, ?_⟩
  · exact (hcur.avoids (by decide)).append ((avoids_of_all (by decide +kernel) hgap).append
      (hts.avoids (by decide)))
  · exact (clear_of_spells hcur (by decide) (by decide)).append
      ((clear_of_avoids (avoids_of_all (by decide +kernel) hgap)).append
        (clear_of_spells hts (by decide) (by decide)))

/-- How an offset of the current date begins in the new dialect. -/
def offsetLead (sign : Char) : List Char :=
  "current_date ".toList ++ (sign :: " INTERVAL ".toList)

theorem Offset.meaning_eq (o : Offset) : o.meaning =
    offsetLead o.sign ++ '\'' :: ((o.count ++ ' ' :: o.unit.map asciiLower) ++ ['\'']) := by
  unfold Offset.meaning
  rw [intervalOffset_eq]
  unfold offsetLead
  generalize "current_date ".toList = first
  generalize " INTERVAL ".toList = second
  simp

/-- A pattern of phrases that looks at no more than the word boundary behind a phrase, and does not
read what offsets of the current date begin with in the new dialect. -/
structure Standalone (p : Scan (List Char)) : Prop extends Phrasal p where
  foresees : Foresees Outside p
  worded : Yields p fun _ t => Worded t
  spurns : (['+', '-'].all fun sign => (List.range 25).all fun n =>
    (p ⟨none, (offsetLead sign).take n⟩).isNone) = true

private theorem foresees_keyword {near : Option Char → Option Char → Prop} (w : String) :
    Foresees near (keyword w) :=
  foresees_letters _

private theorem foresees_currentDate : Foresees Outside currentDate :=
  Foresees.bind Outside.refl foresees_wordBoundary fun _ =>
    Foresees.bind Outside.refl (foresees_keyword _) fun _ =>
      Foresees.bind_moves ((foresees_run₁ _).one_orElse (moves_run₁ _)) (fun _ => foresees_keyword _)
        fun _ => moves_letters (by decide)

private theorem foresees_duration : Foresees Outside duration :=
  Foresees.bind_moves (foresees_run₁ _).written
    (fun _ => Foresees.bind_moves (foresees_run _)
      (fun _ => Foresees.bind Outside.refl
        (foresees_anyKeyword (by decide +kernel) (by decide)).written fun _ =>
          Foresees.bind Outside.refl (foresees_letter (by decide)) fun _ =>
            Foresees.bind Outside.refl foresees_wordBoundary fun _ => foresees_pure _)
      fun _ => (moves_anyKeyword (by decide)).written.bind _)
    fun _ => Moves.of_bind fun _ => (moves_anyKeyword (by decide)).written.bind _

private theorem moves_duration : Moves duration :=
  (moves_run₁ _).written.bind _

theorem standalone_signFoldedOffset : Standalone signFoldedOffset where
  toPhrasal := phrasal_signFoldedOffset
  foresees := Foresees.bind Outside.refl foresees_currentDate fun _ =>
    Foresees.bind_moves (foresees_run _)
      (fun _ => Foresees.bind Outside.refl (foresees_one _) fun _ =>
        Foresees.bind_moves (foresees_run _)
          (fun _ => Foresees.bind Outside.refl (foresees_one _) fun _ =>
            Foresees.bind_moves (foresees_run _)
              (fun _ => Foresees.bind Outside.refl foresees_duration fun _ => foresees_pure _)
              fun _ => moves_duration.bind _)
          fun _ => (moves_one _).bind _)
      fun _ => (moves_one _).bind _
  worded := yields_signFoldedOffset.mono fun _ _ ⟨_, ho, ht, _⟩ => ht ▸ ho.worded
  spurns := by decide +kernel

theorem standalone_dateOffset : Standalone dateOffset where
  toPhrasal := phrasal_dateOffset
  foresees := Foresees.bind Outside.refl foresees_currentDate fun _ =>
    Foresees.bind_moves (foresees_run _)
      (fun _ => Foresees.bind Outside.refl (foresees_one _).written fun _ =>
        Foresees.bind_moves (foresees_run _)
          (fun _ => Foresees.bind Outside.refl foresees_duration fun _ => foresees_pure _)
          fun _ => moves_duration.bind _)
      fun _ => (moves_one _).written.bind _
  worded := yields_dateOffset.mono fun _ _ ⟨_, ho, ht, _⟩ => ht ▸ ho.worded
  spurns := by decide +kernel

theorem standalone_currentTimestamp : Standalone currentTimestamp where
  toPhrasal := phrasal_currentTimestamp
  foresees := Foresees.bind Outside.refl foresees_wordBoundary fun _ =>
    Foresees.bind Outside.refl (foresees_keyword _) fun _ =>
      Foresees.bind_moves (foresees_run₁ _)
        (fun _ => Foresees.bind Outside.refl (foresees_keyword _) fun _ =>
          Foresees.bind Outside.refl foresees_wordBoundary fun _ => foresees_pure _)
        fun _ => (moves_letters (by decide)).bind _
  worded := yields_currentTimestamp_worded
  spurns := by decide +kernel

namespace Standalone

variable {p : Scan (List Char)} {b : Option Char} {t r a : List Char}

/-- A phrase is read where it stands exactly if it is read alone and stands between word
boundaries. -/
theorem reads_iff (h : Standalone p) : p ⟨b, t ++ r⟩ = some (a, t.length) ↔
    p ⟨none, t⟩ = some (a, t.length) ∧ b.any isWord = false ∧ r.head?.any isWord = false := by
  have hbeside : b.any isWord = false → p ⟨b, t ++ r⟩ = p ⟨none, t ++ r⟩ := fun hb =>
    (h.confined ';' (by decide)).beside (t ++ r) hb
  constructor
  · intro hr
    obtain ⟨hb, hend⟩ := h.boundaries hr
    rw [hbeside hb] at hr
    exact ⟨by simpa using h.foresees none t r [] a (.inr ⟨hend, rfl⟩) hr, hb, hend⟩
  · rintro ⟨hr, hb, hend⟩
    rw [hbeside hb]
    exact h.foresees none t [] r a (.inr ⟨rfl, hend⟩) (by simpa using hr)

theorem phrase_of_reads (h : Standalone p) (hr : p ⟨none, t⟩ = some (a, t.length)) :
    Phrase t a ∧ Worded t := by
  have hphrase := h.phrase _ _ _ hr
  have hworded := h.worded _ _ _ hr
  rw [List.take_length] at hphrase hworded
  exact ⟨hphrase, hworded⟩

end Standalone

/-- A phrase of the pattern stands in the text. -/
def Contains (p : Scan (List Char)) (text : List Char) : Prop :=
  ∃ front t back a, text = front ++ (t ++ back) ∧ t ≠ [] ∧ p ⟨none, t⟩ = some (a, t.length) ∧
    front.getLast?.any isWord = false ∧ back.head?.any isWord = false

variable {p : Scan (List Char)}

theorem Standalone.occurs_iff (h : Standalone p) (text : List Char) :
    p.occurs text = true ↔ Contains p text := by
  rw [Scan.occurs_iff (h.confined ';' (by decide))]
  constructor
  · rintro ⟨front, t, back, a, he, hne, hr⟩
    exact ⟨front, t, back, a, he, hne, h.reads_iff.1 hr⟩
  · rintro ⟨front, t, back, a, he, hne, hr⟩
    exact ⟨front, t, back, a, he, hne, h.reads_iff.2 hr⟩

theorem Phrasal.occurs_append (h : Phrasal p) {d : Char} (hd : d ∈ marks) (x z : List Char) :
    p.occurs (x ++ d :: z) = (p.occurs x || p.occurs z) :=
  (h.confined d hd).occurs_append (isWord_of_mem_marks hd) x z

private theorem append_cases {x z front t back : List Char} (h : x ++ z = front ++ (t ++ back)) :
    (∃ back', x = front ++ (t ++ back') ∧ back = back' ++ z) ∨
      (∃ u k, t = u ++ k ∧ u ≠ [] ∧ k ≠ [] ∧ x = front ++ u ∧ z = k ++ back) ∨
      ∃ k, front = x ++ k ∧ z = k ++ (t ++ back) := by
  rcases List.append_eq_append_iff.1 h with ⟨k, rfl, hz⟩ | ⟨u, rfl, hz⟩
  · exact .inr (.inr ⟨k, rfl, hz⟩)
  · rcases List.append_eq_append_iff.1 hz with ⟨back', rfl, hback⟩ | ⟨k, rfl, hrest⟩
    · exact .inl ⟨back', rfl, hback⟩
    · by_cases hk : k = []
      · subst hk
        exact .inl ⟨[], by simp, by simpa using hrest.symm⟩
      · by_cases hu : u = []
        · subst hu
          exact .inr (.inr ⟨[], by simp, by simpa using hrest⟩)
        · exact .inr (.inl ⟨u, k, rfl, hu, hk, rfl, hrest⟩)

/-- No phrase has a part in the text, wherever the text stands behind another. -/
structure Repels (p : Scan (List Char)) (text : List Char) : Prop where
  across : ∀ {u k back a}, text = k ++ back → u ≠ [] → k ≠ [] → back.head?.any isWord = false →
    p ⟨none, u ++ k⟩ ≠ some (a, (u ++ k).length)
  inside : ∀ {k t back a}, text = k ++ (t ++ back) → t ≠ [] → k.getLast?.any isWord = false →
    back.head?.any isWord = false → p ⟨none, t⟩ ≠ some (a, t.length)

theorem repels_nil (p : Scan (List Char)) : Repels p [] where
  across he _ hk _ _ := hk (List.append_eq_nil_iff.1 he.symm).1
  inside he ht _ _ _ := ht (List.append_eq_nil_iff.1 (List.append_eq_nil_iff.1 he.symm).2).1

theorem Repels.contains {x z : List Char} (h : Repels p z) (hc : Contains p (x ++ z)) :
    Contains p x := by
  obtain ⟨front, t, back, a, he, hne, hr, hfront, hback⟩ := hc
  rcases append_cases he with ⟨back', rfl, rfl⟩ | ⟨u, k, rfl, hu, hk, rfl, rfl⟩ | ⟨k, rfl, rfl⟩
  · refine ⟨front, t, back', a, rfl, hne, hr, hfront, ?_⟩
    cases back' with
    | nil => rfl
    | cons c back' => exact hback
  · exact absurd hr (h.across rfl hu hk hback)
  · refine absurd hr (h.inside rfl hne ?_ hback)
    rw [List.getLast?_append] at hfront
    exact not_isWord_of_or hfront

theorem Contains.append_right {x : List Char} (h : Contains p x)
    (hx : x.getLast?.any isWord = false) (hp : Standalone p) (z : List Char) : Contains p (x ++ z) := by
  obtain ⟨front, t, back, a, rfl, hne, hr, hfront, hback⟩ := h
  refine ⟨front, t, back ++ z, a, by simp, hne, hr, hfront, ?_⟩
  cases back with
  | nil =>
    rw [List.append_nil, List.getLast?_append_of_ne_nil _ hne, (hp.phrase_of_reads hr).1.last] at hx
    cases hx
  | cons c back => exact hback

theorem Standalone.contains_of_append (hp : Standalone p) {x z : List Char} (hx : Avoids ['c'] x)
    (h : Contains p (x ++ z)) : Contains p z := by
  obtain ⟨front, t, back, a, he, hne, hr, hfront, hback⟩ := h
  have hhead : ∃ c t', t = c :: t' ∧ foldCase c = 'c' := by
    have hword := (hp.phrase_of_reads hr).2.head
    cases t with
    | nil => exact absurd rfl hne
    | cons c t' => exact ⟨c, t', rfl, by simpa using hword⟩
  obtain ⟨c, t', rfl, hc⟩ := hhead
  have hnot : c ∉ x := fun hm => hx c hm (by simp [hc])
  rcases append_cases he with ⟨back', rfl, -⟩ | ⟨u, k, hu, hune, -, rfl, -⟩ | ⟨k, rfl, rfl⟩
  · exact absurd (by simp) hnot
  · cases u with
    | nil => exact absurd rfl hune
    | cons d u =>
      obtain ⟨rfl, -⟩ := List.cons.inj hu
      exact absurd (by simp) hnot
  · refine ⟨k, c :: t', back, a, rfl, hne, hr, ?_, hback⟩
    rw [List.getLast?_append] at hfront
    exact not_isWord_of_or hfront

theorem Contains.of_trim {text : List Char} (h : Contains p (trim text)) : Contains p text := by
  obtain ⟨lead, trail, hl, ht, he⟩ := exists_trim text
  obtain ⟨front, t, back, a, htrim, hne, hr, hfront, hback⟩ := h
  refine ⟨lead ++ front, t, back ++ trail, a, ?_, hne, hr, ?_, ?_⟩
  · rw [he, htrim]
    simp
  · cases hf : front.getLast? with
    | some c => simpa [List.getLast?_append, hf] using hfront
    | none =>
      rw [List.getLast?_append, hf, Option.none_or]
      exact getLast?_any_isWord_of_blank hl
  · cases back with
    | cons c back => exact hback
    | nil => exact head?_any_isWord_of_blank ht

/-- No U stands behind a C, in either case. -/
def Barren (text : List Char) : Prop :=
  ∀ s ∈ text.tails, s.head?.map foldCase = some 'c' → Avoids ['u'] s.tail

instance (text : List Char) : Decidable (Barren text) :=
  inferInstanceAs (Decidable (∀ s ∈ text.tails, _ → _))

theorem barren_of_avoids {text : List Char} (h : Avoids ['c'] text) : Barren text := by
  intro s hs hc
  cases s with
  | nil => cases hc
  | cons c s =>
    have hmem := ((List.mem_tails _ _).1 hs).subset List.mem_cons_self
    exact absurd (by simpa using hc) (h c hmem)

theorem Standalone.not_reads_of_barren (hp : Standalone p) {text : List Char} (h : Barren text)
    {k t back a : List Char} (he : text = k ++ (t ++ back)) : p ⟨none, t⟩ ≠ some (a, t.length) := by
  intro hr
  obtain ⟨hphrase, hworded⟩ := hp.phrase_of_reads hr
  obtain ⟨c, t, rfl, -, hu, -⟩ := hphrase.first
  have hhead : foldCase c = 'c' := by simpa using hworded.head
  obtain ⟨d, hd, hfold⟩ := List.mem_map.1 hu
  have hspare := h (c :: t ++ back) ((List.mem_tails _ _).2 ⟨k, he.symm⟩) (by simp [hhead])
  exact hspare d (List.mem_append_left back hd) (by simp [hfold])

/-- Behind its first character a phrase holds no C, and it holds no W anywhere. -/
theorem Standalone.across_of_mem (hp : Standalone p) {u k a : List Char} (hu : u ≠ []) {d : Char}
    (hd : d ∈ k) (h : foldCase d = 'c' ∨ foldCase d = 'w') :
    p ⟨none, u ++ k⟩ ≠ some (a, (u ++ k).length) := by
  intro hr
  obtain ⟨hphrase, hworded⟩ := hp.phrase_of_reads hr
  rcases h with h | h
  · obtain ⟨c, t, ht, -, -, hfirst⟩ := hphrase.first
    cases u with
    | nil => exact absurd rfl hu
    | cons x u =>
      obtain ⟨rfl, rfl⟩ := List.cons.inj ht
      exact hfirst d (List.mem_append_right u hd) (by simp [h])
  · exact hworded.spares d (List.mem_append_right u hd) (by simp [h])

theorem Standalone.repels_word (hp : Standalone p) {word : List Char}
    (hword : word.all isWord = true)
    (hletter : ∃ c ∈ word, foldCase c = 'c' ∨ foldCase c = 'w')
    (hinside : Barren word) : Repels p word where
  across {u k back a} he hu _ hback := by
    have hnil : back = [] := by
      cases back with
      | nil => rfl
      | cons c back =>
        have hc := List.all_eq_true.1 hword c (by simp [he])
        exact absurd hback (by simp [hc])
    obtain ⟨d, hd, hletter⟩ := hletter
    rw [he, hnil, List.append_nil] at hd
    exact hp.across_of_mem hu hd hletter
  inside he _ _ _ := hp.not_reads_of_barren hinside he

theorem Standalone.repels_blank (hp : Standalone p) {text : List Char}
    (hblank : text.head?.any isBlank = true) (hletter : text[1]?.map foldCase = some 'a')
    (hinside : Barren text) : Repels p text where
  across {u k back a} he hu hk _ hr := by
    obtain ⟨hphrase, hworded⟩ := hp.phrase_of_reads hr
    cases k with
    | nil => exact hk rfl
    | cons b k =>
      have hb : isBlank b = true := by simpa [he] using hblank
      cases k with
      | nil =>
        have hlast := hphrase.last
        rw [List.getLast?_concat] at hlast
        simp [isWord_of_isBlank hb] at hlast
      | cons c k =>
        have hc : foldCase c = 'a' := by simpa [he] using hletter
        have hclear := hworded.clear (u ++ [b]) c k (by simp) hc
        simp [hb] at hclear
  inside he _ _ _ := hp.not_reads_of_barren hinside he

theorem Standalone.repels_comma (hp : Standalone p) {text : List Char}
    (hcomma : text.head? = some ',') (hinside : Barren text) :
    Repels p text where
  across {u k back a} he hu hk _ hr := by
    obtain ⟨hphrase, -⟩ := hp.phrase_of_reads hr
    cases k with
    | nil => exact hk rfl
    | cons c k =>
      obtain rfl : c = ',' := by simpa [he] using hcomma
      exact (hphrase.inert ',' (by simp)).2.2.2 rfl
  inside he _ _ _ := hp.not_reads_of_barren hinside he

theorem Standalone.repels_offsetLead (hp : Standalone p) {sign : Char}
    (hs : sign = '+' ∨ sign = '-') : Repels p (offsetLead sign) where
  across {u k back a} he hu hk _ := by
    cases k with
    | nil => exact absurd rfl hk
    | cons c k =>
      obtain rfl : 'c' = c := (List.cons.inj he).1
      exact hp.across_of_mem hu List.mem_cons_self (.inl (by decide))
  inside {k t back a} he hne _ _ := by
    cases k with
    | cons c k =>
      -- Behind its first letter there is no C.
      have htail : (offsetLead sign).tail = k ++ (t ++ back) := congrArg List.tail he
      have hspare : Avoids ['c'] (offsetLead sign).tail := by
        rcases hs with rfl | rfl <;> decide
      exact hp.not_reads_of_barren (barren_of_avoids hspare) htail
    | nil =>
      intro hr
      have hspurns := hp.spurns
      have hmem : sign ∈ ['+', '-'] := by simpa using hs
      have hlen : (offsetLead sign).length = 24 := by
        rcases hs with rfl | rfl <;> decide
      have hle : t.length < 25 := by
        rw [he] at hlen
        simp only [List.nil_append, List.length_append] at hlen
        omega
      have hnone := List.all_eq_true.1 (List.all_eq_true.1 hspurns sign hmem) t.length
        (List.mem_range.2 hle)
      rw [show (offsetLead sign).take t.length = t by rw [he]; exact List.take_left, hr] at hnone
      cases hnone

end ReportMigration.Sql
