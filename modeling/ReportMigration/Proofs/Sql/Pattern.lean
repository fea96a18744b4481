import ReportMigration.Proofs.Sql.Phrase

/-!
# What the standard patterns leave

A pattern of phrases leaves every place of a text inside the literals and parentheses it stood in,
and a word that is no part of a phrase where it stands. An isolation hint is only taken from the
end of a text.
-/

namespace ReportMigration.Sql

open Text Scan

variable {p : Scan (List Char)}

def Phrases (segments : List (Segment (List Char))) : Prop :=
  ∀ hit meaning, .hit hit meaning ∈ segments → Phrase hit meaning

theorem Phrasal.phrases (h : Phrasal p) (covered : Nat) (before : Option Char) (text : List Char) :
    Phrases (segmentsFrom p covered before text) :=
  fun _ _ hm => h.phrase.mem_segmentsFrom covered before text hm

theorem Phrases.cons {s : Segment (List Char)} {segments : List (Segment (List Char))}
    (h : Phrases (s :: segments)) : Phrases segments :=
  fun t m hm => h t m (List.mem_cons_of_mem _ hm)

theorem Phrases.walk {segments : List (Segment (List Char))} (h : Phrases segments) (commas : Bool)
    (place : Place) :
    place.walk commas (segments.flatMap Segment.replaced) =
      place.walk commas (segments.flatMap Segment.text) := by
  induction segments generalizing place with
  | nil => rfl
  | cons s segments ih =>
    rw [List.flatMap_cons, List.flatMap_cons, Place.walk_append, Place.walk_append]
    have hs : place.walk commas s.replaced = place.walk commas s.text := by
      cases s with
      | plain c => rfl
      | hit t m =>
        have hp := h t m List.mem_cons_self
        exact (hp.neutral commas place).trans (hp.inert.walk commas place).symm
    rw [hs]
    exact congrArg _ (funext fun place => ih h.cons place)

theorem Neutral.unquoted {text : List Char} (h : Neutral text) : Unquoted text :=
  Closed.unquoted (h false _)

theorem Phrases.unquoted_iff {segments : List (Segment (List Char))} (h : Phrases segments) :
    Unquoted (segments.flatMap Segment.replaced) ↔ Unquoted (segments.flatMap Segment.text) := by
  induction segments with
  | nil => rfl
  | cons s segments ih =>
    have hs : s.replaced.count '\'' % 2 = s.text.count '\'' % 2 := by
      cases s with
      | plain c => rfl
      | hit t m =>
        have hp := h t m List.mem_cons_self
        exact hp.neutral.unquoted.trans hp.inert.neutral.unquoted.symm
    have ih := ih h.cons
    unfold Unquoted at ih ⊢
    rw [List.flatMap_cons, List.flatMap_cons, List.count_append, List.count_append]
    omega

theorem Phrasal.walk_substitute (h : Phrasal p) (commas : Bool) (place : Place) (text : List Char) :
    place.walk commas (p.substitute text) = place.walk commas text := by
  rw [substitute, segments, (h.phrases 0 none text).walk]
  exact congrArg _ (segments_text p text)

theorem Phrasal.item_substitute (h : Phrasal p) {text : List Char} (ht : Item text) :
    Item (p.substitute text) :=
  (h.walk_substitute true _ text).trans ht

theorem Phrasal.unquoted_substitute (h : Phrasal p) (text : List Char) :
    Unquoted (p.substitute text) ↔ Unquoted text := by
  rw [substitute, segments, (h.phrases 0 none text).unquoted_iff]
  exact iff_of_eq (congrArg _ (segments_text p text))

theorem Phrasal.substitute_append (h : Phrasal p) {d : Char} (hd : d ∈ marks) (x z : List Char) :
    p.substitute (x ++ d :: z) = p.substitute x ++ d :: p.substitute z :=
  (h.confined d hd).substitute_append (isWord_of_mem_marks hd) x z

theorem Phrase.solid_hit {hit meaning : List Char} (h : Phrase hit meaning) : Solid hit := by
  obtain ⟨c, t, rfl, hc, -, -⟩ := h.first
  cases hb : isBlank c with
  | false => exact ⟨c, List.mem_cons_self, hb⟩
  | true => exact absurd (isWord_of_isBlank hb) (by simp [hc])

theorem Phrase.solid_meaning {hit meaning : List Char} (h : Phrase hit meaning) :
    Solid meaning := by
  obtain ⟨c, hl, he⟩ := (Option.any_eq_true _ _).1 h.ending
  exact ⟨c, List.mem_of_getLast? hl, by simpa using (Bool.and_eq_true_iff.1 he).2⟩

theorem Phrases.solid_iff {segments : List (Segment (List Char))} (h : Phrases segments) :
    Solid (segments.flatMap Segment.replaced) ↔ Solid (segments.flatMap Segment.text) := by
  induction segments with
  | nil => rfl
  | cons s segments ih =>
    rw [List.flatMap_cons, List.flatMap_cons, solid_append, solid_append, ih h.cons]
    cases s with
    | plain c => rfl
    | hit t m =>
      have hp := h t m List.mem_cons_self
      exact or_congr_left ⟨fun _ => hp.solid_hit, fun _ => hp.solid_meaning⟩

theorem Phrasal.solid_substitute (h : Phrasal p) (text : List Char) :
    Solid (p.substitute text) ↔ Solid text := by
  rw [substitute, segments, (h.phrases 0 none text).solid_iff]
  exact iff_of_eq (congrArg _ (segments_text p text))

/-- A word that begins with a C and holds no U. -/
structure Bystander (word : List Char) : Prop where
  first : ∃ c t, word = c :: t ∧ foldCase c = 'c'
  spares : Avoids ['u'] word

/-- A phrase in front of such a word ends before it where the text ends with no word character: the word
holds no U, and behind its first letter a phrase holds no C. -/
private theorem Phrase.ends_before {front t back text word a : List Char} (ht : Phrase t a)
    (hw : Bystander word) (hsplit : text ++ word = front ++ (t ++ back))
    (hlast : text.getLast?.any isWord = false) :
    ∃ rest, rest ≠ [] ∧ text = front ++ (t ++ rest) ∧ back = rest ++ word := by
  have hapart : text ≠ front ++ t := by
    rintro rfl
    rw [getLast?_append_any ht.last] at hlast
    cases hlast
  obtain ⟨x, t, rfl, -, hu, hc⟩ := ht.first
  have hoverlap : ¬ x :: t ⊆ word := by
    intro hsub
    obtain ⟨y, hy, he⟩ := List.mem_map.1 hu
    exact hw.spares y (hsub (List.mem_cons_of_mem x hy)) (by simp [he])
  rw [← List.append_assoc] at hsplit
  rcases List.append_eq_append_iff.1 hsplit with ⟨shared, hfront, rfl⟩ | ⟨rest, rfl, hback⟩
  · rcases List.append_eq_append_iff.1 hfront with ⟨lead, rfl, hlead⟩ | ⟨more, -, rfl⟩
    · cases lead with
      | nil => exact absurd (hlead ▸ List.subset_append_left _ _) hoverlap
      | cons y lead =>
        obtain ⟨rfl, rfl⟩ := List.cons.inj hlead
        obtain ⟨d, w, hd, hfold⟩ := hw.first
        cases shared with
        | nil => exact absurd (by simp) hapart
        | cons e shared =>
          obtain ⟨rfl, -⟩ := List.cons.inj hd
          exact absurd (hc e (by simp)) (by simp [hfold])
    · refine absurd (fun c hm => ?_) hoverlap
      exact List.mem_append_left _ (List.mem_append_right _ hm)
  · exact ⟨rest, fun he => hapart (by simp [he]), by simp, hback⟩

private theorem Phrasal.substitutes_bystander (h : Phrasal p) {word : List Char} (hw : Bystander word)
    {before : Option Char} {text out : List Char} (hr : Substitutes p before (text ++ word) out)
    (hlast : (text.getLast?.or before).any isWord = false) :
    ∃ text', out = text' ++ word ∧ text'.getLast?.or before = text.getLast?.or before := by
  generalize hwhole : text ++ word = whole at hr
  induction hr generalizing text with
  | nowhere => exact ⟨text, hwhole.symm, rfl⟩
  | @first before front t back a out _ hread _ _ ih =>
    have ht : Phrase t a := by simpa using h.phrase _ _ _ hread
    obtain ⟨rest, hne, rfl, rfl⟩ := ht.ends_before hw hwhole (not_isWord_of_or hlast)
    obtain ⟨c, hc⟩ : ∃ c, rest.getLast? = some c := ⟨_, List.getLast?_eq_some_getLast hne⟩
    have hword : isWord c = false := by simpa [List.getLast?_append, hc] using hlast
    obtain ⟨rest', rfl, hl⟩ := ih (by simpa [hc] using hword) rfl
    refine ⟨front ++ (a ++ rest'), by simp, ?_⟩
    rw [hc, Option.some_or] at hl
    cases hr : rest'.getLast? with
    | none =>
      -- The phrase itself would end with no word character.
      rw [hr, Option.none_or] at hl
      exact absurd ht.last (by simp [hl, hword])
    | some d =>
      rw [hr, Option.some_or] at hl
      simp [List.getLast?_append, hr, hc, hl]

/-- A pattern leaves a word behind a text as it is, and nothing that it puts into the text touches
the word. -/
theorem Phrasal.substitute_bystander (h : Phrasal p) {word : List Char} (hw : Bystander word)
    {text : List Char} (ht : Unquoted text) (hlast : text.getLast?.any isWord = false) :
    ∃ text', p.substitute (text ++ word) = text' ++ word ∧ Unquoted text' ∧
      text'.getLast? = text.getLast? := by
  obtain ⟨text', hs, hl⟩ :=
    h.substitutes_bystander hw (h.substitutes (text ++ word)) (by simpa using hlast)
  refine ⟨text', hs, ?_, by simpa using hl⟩
  have hparity := h.unquoted_substitute (text ++ word)
  rw [hs] at hparity
  unfold Unquoted at ht hparity ⊢
  rw [List.count_append, List.count_append] at hparity
  omega

theorem reaches_isolationHint : Reaches (·.ahead.isEmpty = true) isolationHint := by
  refine Reaches.bind fun _ => Reaches.bind fun _ => Reaches.bind fun _ => Reaches.bind fun _ =>
    Reaches.bind fun _ => Reaches.orElse ?_ ?_
  · exact Reaches.bind fun _ => Reaches.bind fun _ => Reaches.bind fun _ => reaches_guard_pure _ _
  · exact Reaches.bind fun _ => reaches_guard_pure _ _

private theorem bind_avoids {α β : Type} {p : Scan α} {next : α → Scan β}
    {letters : List Char} (hp : Yields p fun _ t => Avoids letters t)
    (hn : ∀ a, Yields (next a) fun _ t => Avoids letters t) :
    Yields (p >>= next) fun _ t => Avoids letters t := by
  refine (hp.bind hn).mono ?_
  rintro b t ⟨a, t₁, t₂, rfl, h₁, h₂⟩
  exact h₁.append h₂

theorem yields_isolationHint_letters :
    Yields isolationHint fun _ t => Avoids ('e' :: separators) t := by
  have hrun : Yields (run isBlank) fun _ t => Avoids ('e' :: separators) t :=
    (yields_run isBlank).mono fun _ t => avoids_of_all (by decide +kernel)
  have hrun₁ : Yields (run₁ isBlank) fun _ t => Avoids ('e' :: separators) t :=
    (yields_run₁ isBlank).mono fun _ t => avoids_of_all (by decide +kernel)
  have hguard : ∀ test, Yields (guard test) fun _ t => Avoids ('e' :: separators) t := fun test =>
    (yields_guard test).mono fun _ t ht => by simp [ht, Avoids]
  have hpure : ∀ a : List Char, Yields (pure a : Scan (List Char)) fun _ t => Avoids ('e' :: separators) t :=
    fun a => (yields_pure a).mono fun _ t ht => by simp [ht.2, Avoids]
  have hwith : Yields (keyword "WITH") fun _ t => Avoids ('e' :: separators) t :=
    (yields_letters _).mono fun _ t (ht : Spells "WITH" t) => ht.avoids (by decide)
  have hlevel : Yields (anyKeyword ["UR", "CS", "RS", "RR"]) fun _ t => Avoids ('e' :: separators) t :=
    (yields_anyKeyword _).mono fun _ t ⟨w, hw, (ht : Spells w t)⟩ =>
      ht.avoids (by clear ht; revert w; decide)
  have hsemicolon : Yields (one (· == ';')) fun _ t => Avoids ('e' :: separators) t := by
    refine (yields_one _).mono ?_
    rintro _ t ⟨x, rfl, hx⟩
    obtain rfl : x = ';' := by simpa using hx
    decide
  refine bind_avoids hrun₁ fun _ => bind_avoids hwith fun _ => bind_avoids hrun₁ fun _ =>
    bind_avoids hlevel fun _ => bind_avoids (hguard _) fun _ => (Yields.orElse
      (bind_avoids hrun fun _ => bind_avoids hsemicolon fun _ => bind_avoids hrun fun _ =>
        bind_avoids (hguard _) fun _ => hpure _)
      (bind_avoids hrun fun _ => bind_avoids (hguard _) fun _ => hpure _)).mono ?_
  rintro _ t (h | h)
  · exact h
  · exact h

theorem yields_isolationHint : Yields isolationHint fun _ t => Avoids separators t :=
  yields_isolationHint_letters.mono fun _ _ h => h.mono (by decide)

theorem meaning_isolationHint : Yields isolationHint fun a _ => a = [';'] ∨ a = [] := by
  have hnext : ∀ {α β : Type} {p : Scan α} {next : α → Scan β} {q : β → Prop},
      (∀ a, Yields (next a) fun b _ => q b) → Yields (p >>= next) fun b _ => q b := by
    intro α β p next q hn c b k h
    obtain ⟨a, n, m, -, h₂, rfl⟩ := bind_eq_some.1 h
    exact hn a _ _ _ h₂
  have hsemicolon : Yields (pure [';'] : Scan (List Char)) fun a _ => a = [';'] :=
    (yields_pure _).mono fun _ _ h => h.1
  have hnothing : Yields (pure [] : Scan (List Char)) fun a _ => a = [] :=
    (yields_pure _).mono fun _ _ h => h.1
  exact hnext fun _ => hnext fun _ => hnext fun _ => hnext fun _ => hnext fun _ =>
    Yields.orElse (hnext fun _ => hnext fun _ => hnext fun _ => hnext fun _ => hsemicolon)
      (hnext fun _ => hnext fun _ => hnothing)

theorem substitute_isolationHint (text : List Char) :
    ∃ text', ∀ before, isolationHint.substitute (before ++ ')' :: text) = before ++ ')' :: text' := by
  refine ⟨(segmentsFrom isolationHint 0 (some ')') text).flatMap Segment.replaced, fun before => ?_⟩
  have hnone : ∀ (x : List Char) (b : Option Char) (a : List Char) (n : Nat),
      isolationHint ⟨b, x ++ ')' :: text⟩ ≠ some (a, n) := by
    intro x b a n he
    have hall := reaches_isolationHint _ _ _ he
    have hav := yields_isolationHint _ _ _ he
    simp only [Cursor.advance, List.isEmpty_iff, List.drop_eq_nil_iff] at hall
    rw [List.take_of_length_le hall] at hav
    exact hav ')' (by simp) (by decide)
  have hsegments : ∀ b : Option Char, segmentsFrom isolationHint 0 b (before ++ ')' :: text) =
      before.map .plain ++ .plain ')' :: segmentsFrom isolationHint 0 (some ')') text := by
    induction before with
    | nil => exact fun b => segmentsFrom_plain fun a n => hnone [] b a (n + 1)
    | cons c before ih =>
      intro b
      have hplain : ∀ a n, isolationHint ⟨b, c :: (before ++ ')' :: text)⟩ ≠ some (a, n + 1) :=
        fun a n => hnone (c :: before) b a (n + 1)
      rw [List.cons_append, segmentsFrom_plain hplain, ih]
      rfl
  rw [substitute, segments, hsegments]
  simp [Segment.replaced, List.flatMap_map]

end ReportMigration.Sql
