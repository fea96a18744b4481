import ReportMigration.Proofs.Sql.Nesting

/-!
# The pieces of a text

How `Arguments.cut` cuts a text piece by piece: an item passes whole into the piece it starts in,
the pieces of a closed text are items, and text outside literals has pieces outside literals.
-/

namespace ReportMigration.Sql.Arguments

open Text

@[simp] theorem prepend_nil (r : List Char × List (List Char)) : prepend [] r = r := rfl

theorem prepend_prepend (s t : List Char) (r : List Char × List (List Char)) :
    prepend s (prepend t r) = prepend (s ++ t) r := by
  simp [prepend]

attribute [local simp] cut

theorem cut_true_quote (depth : Nat) (rest : List Char) :
    cut true depth ('\'' :: rest) = prepend ['\''] (cut false depth rest) := by
  cases rest with
  | nil => simp
  | cons c rest =>
    by_cases hc : c = '\''
    · subst hc
      simp [prepend_prepend]
    · rw [cut]
      · simp
      · rintro r - he
        exact hc (List.cons.inj he).1

/-- A character that no top-level comma and no stray parenthesis stays in the piece. -/
theorem cut_cons {p q : Place} {c : Char} (h : p.step true c = some q) (rest : List Char) :
    cut p.quoted p.depth (c :: rest) = prepend [c] (cut q.quoted q.depth rest) := by
  obtain ⟨quoted, depth⟩ := p
  cases quoted with
  | true =>
    by_cases hc : c = '\''
    · subst hc
      obtain rfl : ⟨false, depth⟩ = q := by simpa [Place.step] using h
      exact cut_true_quote depth rest
    · obtain rfl : ⟨true, depth⟩ = q := by simpa [Place.step, hc] using h
      have hb : (c != '\'') = true := by simpa using hc
      rw [cut, hb]
      rintro r rfl
      exact absurd rfl hc
  | false =>
    rw [cut]
    unfold Place.step at h
    grind

theorem cut_stray (rest : List Char) :
    cut false 0 (')' :: rest) = prepend [')'] (cut false 0 rest) := by
  simp

theorem cut_comma (rest : List Char) :
    cut false 0 (',' :: rest) = ([], pieces rest) := by
  simp [pieces]

theorem cut_cases (p : Place) (c : Char) :
    (∃ q : Place, q.quoted = (p.quoted != (c == '\'')) ∧
        ∀ rest, cut p.quoted p.depth (c :: rest) = prepend [c] (cut q.quoted q.depth rest)) ∨
      (c = ',' ∧ p = ⟨false, 0⟩) := by
  cases h : p.step true c with
  | some q => exact .inl ⟨q, Place.step_quoted h, cut_cons h⟩
  | none =>
    obtain ⟨rfl | rfl, rfl⟩ := Place.of_step_eq_none h
    · exact .inl ⟨⟨false, 0⟩, by simp, cut_stray⟩
    · exact .inr ⟨rfl, rfl⟩

/-- A text that passes without a top-level comma stays in one piece. -/
theorem cut_append {p q : Place} {text : List Char} (h : p.walk true text = some q)
    (rest : List Char) :
    cut p.quoted p.depth (text ++ rest) = prepend text (cut q.quoted q.depth rest) := by
  induction text generalizing p with
  | nil =>
    obtain rfl : p = q := by simpa using h
    rfl
  | cons c text ih =>
    rw [Place.walk_cons] at h
    obtain ⟨r, hr, hq⟩ := Option.bind_eq_some_iff.1 h
    rw [List.cons_append, cut_cons hr, ih hq, prepend_prepend]
    rfl

theorem cut_item {text : List Char} (h : Item text) (depth : Nat) (rest : List Char) :
    cut false depth (text ++ rest) = prepend text (cut false depth rest) :=
  cut_append (h.walk true depth) rest

theorem cut_of_item {text : List Char} (h : Item text) : cut false 0 text = (text, []) := by
  simpa [prepend] using cut_item h 0 []

theorem split_of_item {text : List Char} (h : Item text) : split text = [trim text] := by
  simp [split, pieces, cut_of_item h]

/-- The pieces of a closed text are items, the first of them behind any place in it. -/
private theorem item_of_mem_cut {p : Place} {text : List Char}
    (h : p.walk false text = some ⟨false, 0⟩) :
    p.walk true (cut p.quoted p.depth text).1 = some ⟨false, 0⟩ ∧
      ∀ piece ∈ (cut p.quoted p.depth text).2, Item piece := by
  induction text generalizing p with
  | nil =>
    obtain rfl : p = ⟨false, 0⟩ := by simpa using h
    simp
  | cons c text ih =>
    rw [Place.walk_cons] at h
    obtain ⟨r, hr, hq⟩ := Option.bind_eq_some_iff.1 h
    cases hs : p.step true c with
    | some q =>
      obtain rfl : r = q := by
        unfold Place.step at hr hs
        grind
      rw [cut_cons hs]
      refine ⟨?_, (ih hq).2⟩
      rw [prepend, List.cons_append, List.nil_append, Place.walk_cons, hs]
      exact (ih hq).1
    | none =>
      obtain ⟨rfl, rfl, rfl⟩ : c = ',' ∧ p = ⟨false, 0⟩ ∧ r = ⟨false, 0⟩ := by
        obtain ⟨quoted, depth⟩ := p
        unfold Place.step at hr hs
        grind
      rw [cut_comma]
      refine ⟨rfl, fun piece hp => ?_⟩
      rcases List.mem_cons.1 hp with rfl | hp
      · exact (ih hq).1
      · exact (ih hq).2 piece hp

theorem item_of_mem_pieces {text piece : List Char} (h : Closed text)
    (hp : piece ∈ pieces text) : Item piece := by
  obtain ⟨hfirst, hothers⟩ := item_of_mem_cut h
  rcases List.mem_cons.1 hp with rfl | hp
  · exact hfirst
  · exact hothers piece hp

theorem item_of_mem_split {text arg : List Char} (h : Closed text) (ha : arg ∈ split text) :
    Item arg := by
  obtain ⟨piece, hp, rfl⟩ := List.mem_map.1 ha
  exact (item_of_mem_pieces h hp).trim

theorem text_cut (p : Place) (text : List Char) :
    (cut p.quoted p.depth text).1 ++
      (cut p.quoted p.depth text).2.flatMap (fun piece => ',' :: piece) = text := by
  induction text generalizing p with
  | nil => simp
  | cons c text ih =>
    rcases cut_cases p c with ⟨q, -, hq⟩ | ⟨rfl, rfl⟩
    · rw [hq]
      simpa [prepend] using ih q
    · rw [cut_comma]
      simpa [pieces] using ih ⟨false, 0⟩

theorem pieces_of_items {first : List Char} {others : List (List Char)} (hfirst : Item first)
    (hothers : ∀ piece ∈ others, Item piece) :
    pieces (first ++ others.flatMap fun piece => ',' :: piece) = first :: others := by
  induction others generalizing first with
  | nil => rw [List.flatMap_nil, List.append_nil, pieces, cut_of_item hfirst]
  | cons piece others ih =>
    obtain ⟨hpiece, hothers⟩ := List.forall_mem_cons.1 hothers
    rw [List.flatMap_cons, List.cons_append, pieces, cut_item hfirst, cut_comma, ih hpiece hothers]
    simp [prepend]

theorem item_of_split_eq {text arg : List Char} (h : Closed text) (hs : split text = [arg]) :
    Item text ∧ arg = trim text := by
  obtain ⟨harg, hothers⟩ : trim (cut false 0 text).1 = arg ∧ (cut false 0 text).2 = [] := by
    simpa [split, pieces] using hs
  have ht : (cut false 0 text).1 = text := by
    simpa [hothers] using text_cut ⟨false, 0⟩ text
  exact ⟨ht ▸ (item_of_mem_cut h).1, by rw [← harg, ht]⟩

private theorem unquoted_of_mem_cut {p : Place} {text : List Char}
    (h : text.count '\'' % 2 = p.quoted.toNat) :
    (cut p.quoted p.depth text).1.count '\'' % 2 = p.quoted.toNat ∧
      ∀ piece ∈ (cut p.quoted p.depth text).2, Unquoted piece := by
  induction text generalizing p with
  | nil => simpa using h
  | cons c text ih =>
    rcases cut_cases p c with ⟨q, hqp, hq⟩ | ⟨rfl, rfl⟩
    · rw [List.count_cons] at h
      have hcount : text.count '\'' % 2 = q.quoted.toNat := by
        rw [hqp]
        cases hp : p.quoted <;> cases hc : c == '\'' <;> simp_all <;> omega
      obtain ⟨hf, ho⟩ := ih hcount
      rw [hq]
      refine ⟨?_, ho⟩
      rw [prepend, List.cons_append, List.nil_append, List.count_cons]
      rw [hqp] at hf
      cases hp : p.quoted <;> cases hc : c == '\'' <;> simp_all <;> omega
    · obtain ⟨hf, ho⟩ := ih (p := ⟨false, 0⟩) (by simpa using h)
      rw [cut_comma]
      refine ⟨rfl, fun piece hp => ?_⟩
      rcases List.mem_cons.1 hp with rfl | hp
      · exact hf
      · exact ho piece hp

theorem unquoted_of_mem_pieces {text piece : List Char} (h : Unquoted text)
    (hp : piece ∈ pieces text) : Unquoted piece := by
  obtain ⟨hfirst, hothers⟩ := unquoted_of_mem_cut (p := ⟨false, 0⟩) h
  rcases List.mem_cons.1 hp with rfl | hp
  · exact hfirst
  · exact hothers piece hp

private theorem exists_cut_append {p : Place} {text : List Char}
    (h : text.count '\'' % 2 = p.quoted.toNat) :
    ∃ before last depth, ∀ rest,
      (cut p.quoted p.depth (text ++ rest)).1 :: (cut p.quoted p.depth (text ++ rest)).2 =
        before ++ (last ++ (cut false depth rest).1) :: (cut false depth rest).2 := by
  induction text generalizing p with
  | nil =>
    obtain ⟨quoted, depth⟩ := p
    obtain rfl : quoted = false := by cases quoted <;> simp_all
    exact ⟨[], [], depth, fun rest => by simp⟩
  | cons c text ih =>
    rcases cut_cases p c with ⟨q, hqp, hq⟩ | ⟨rfl, rfl⟩
    · have hcount : text.count '\'' % 2 = q.quoted.toNat := by
        rw [List.count_cons] at h
        rw [hqp]
        cases hp : p.quoted <;> cases hc : c == '\'' <;> simp_all <;> omega
      obtain ⟨before, last, depth, hcut⟩ := ih hcount
      cases before with
      | nil =>
        refine ⟨[], c :: last, depth, fun rest => ?_⟩
        have hr := hcut rest
        rw [List.cons_append, hq]
        simp_all [prepend]
      | cons first before =>
        refine ⟨(c :: first) :: before, last, depth, fun rest => ?_⟩
        have hr := hcut rest
        rw [List.cons_append, hq]
        simp_all [prepend]
    · obtain ⟨before, last, depth, hcut⟩ := ih (p := ⟨false, 0⟩) (by simpa using h)
      refine ⟨[] :: before, last, depth, fun rest => ?_⟩
      rw [List.cons_append, cut_comma, pieces, hcut]
      rfl

/-- Behind a text outside literals the last of its pieces goes on, at some depth. -/
theorem exists_pieces_append {text : List Char} (h : Unquoted text) :
    ∃ before last depth, pieces text = before ++ [last] ∧ ∀ rest,
      pieces (text ++ rest) =
        before ++ (last ++ (cut false depth rest).1) :: (cut false depth rest).2 := by
  obtain ⟨before, last, depth, hcut⟩ := exists_cut_append (p := ⟨false, 0⟩) h
  refine ⟨before, last, depth, ?_, hcut⟩
  simpa [pieces] using hcut []

end ReportMigration.Sql.Arguments
