import ReportMigration.Proofs.Sql.Passage

/-!
# Mentions

Whether a text mentions a word, in either case of its ASCII letters. A word is mentioned on one side
of a character that no word has or on the other, so a rule that keeps the arguments of the calls it
replaces, and whose function is another word, does not change what a text mentions.
-/

namespace ReportMigration.Sql

open Text Scan Token

/-- The text has the word, which is written in small letters. -/
def Mentions (word text : List Char) : Prop :=
  word <:+: text.map asciiLower

instance (word text : List Char) : Decidable (Mentions word text) :=
  decidable_of_iff _ occursIn_iff

theorem mentionsTemporal_iff {text : List Char} : mentionsTemporal text = true ↔
    Mentions "date".toList text ∨ Mentions "timestamp".toList text := by
  simp only [mentionsTemporal, Bool.or_eq_true, occursIn_iff, Mentions]

variable {word : List Char} {s t : List Char}

theorem Mentions.mono (h : Mentions word t) (ht : t <:+: s) : Mentions word s :=
  h.trans (ht.map asciiLower)

theorem isWord_asciiLower (c : Char) : isWord (asciiLower c) = isWord c := by
  by_cases hc : c.toNat < 0x80
  · have h := isWord_foldCase hc
    rwa [foldCase, if_pos hc] at h
  · rw [asciiLower, if_neg]
    simp only [Bool.and_eq_true, decide_eq_true_eq, Char.le_def, UInt32.le_iff_toNat_le]
    rintro ⟨-, hz⟩
    exact hc (Nat.lt_of_le_of_lt hz (by decide))

/-- A word across a seam has its last letters at the start of the text behind. -/
private theorem infix_append_iff {w u v : List Char} : w <:+: u ++ v ↔
    w <:+: u ∨ w <:+: v ∨ ∃ a b, a ≠ [] ∧ b ≠ [] ∧ w = a ++ b ∧ a <:+ u ∧ b <+: v := by
  constructor
  · rintro ⟨x, y, h⟩
    rcases List.append_eq_append_iff.1 h with ⟨c, rfl, -⟩ | ⟨c, hw, rfl⟩
    · exact .inl ⟨x, c, rfl⟩
    · rcases List.append_eq_append_iff.1 hw with ⟨d, rfl, rfl⟩ | ⟨d, rfl, rfl⟩
      · by_cases hd : d = []
        · exact .inr (.inl ⟨[], y, by simp [hd]⟩)
        by_cases hc : c = []
        · exact .inl ⟨x, [], by simp [hc]⟩
        exact .inr (.inr ⟨d, c, hd, hc, rfl, ⟨x, rfl⟩, ⟨y, rfl⟩⟩)
      · exact .inr (.inl ⟨d, y, by simp⟩)
  · rintro (h | h | ⟨a, b, -, -, rfl, ⟨x, rfl⟩, ⟨y, rfl⟩⟩)
    · exact List.infix_append_of_infix_left h
    · exact List.infix_append_of_infix_right h
    · exact ⟨x, y, by simp⟩

theorem mentions_append_of_last (hs : ∀ c, s.getLast? = some c → asciiLower c ∉ word) :
    Mentions word (s ++ t) ↔ Mentions word s ∨ Mentions word t := by
  rw [Mentions, List.map_append, infix_append_iff]
  refine ⟨?_, fun h => h.elim .inl fun h => .inr (.inl h)⟩
  rintro (h | h | ⟨a, b, ha, -, rfl, hsuffix, -⟩)
  · exact .inl h
  · exact .inr h
  · obtain ⟨x, hx⟩ := hsuffix
    have hl := congrArg List.getLast? hx
    rw [List.getLast?_append, List.getLast?_eq_some_getLast ha, List.getLast?_map] at hl
    obtain ⟨c, hc, he⟩ := Option.map_eq_some_iff.1 hl.symm
    exact absurd (List.mem_append_left b (he ▸ List.getLast_mem ha)) (hs c hc)

theorem mentions_append_of_head (ht : ∀ c, t.head? = some c → asciiLower c ∉ word) :
    Mentions word (s ++ t) ↔ Mentions word s ∨ Mentions word t := by
  rw [Mentions, List.map_append, infix_append_iff]
  refine ⟨?_, fun h => h.elim .inl fun h => .inr (.inl h)⟩
  rintro (h | h | ⟨a, b, -, hb, rfl, -, hprefix⟩)
  · exact .inl h
  · exact .inr h
  · obtain ⟨y, hy⟩ := hprefix
    cases b with
    | nil => exact absurd rfl hb
    | cons d b =>
      have hh := congrArg List.head? hy
      rw [List.cons_append, List.head?_cons, List.head?_map] at hh
      obtain ⟨c, hc, he⟩ := Option.map_eq_some_iff.1 hh.symm
      exact absurd (List.mem_append_right a (he ▸ List.mem_cons_self)) (ht c hc)

theorem Named.notMem (hw : Named word) {c : Char} (hc : Text.isWord c = false) :
    asciiLower c ∉ word := by
  intro hm
  have hword := List.all_eq_true.1 hw.isWord _ hm
  rw [isWord_asciiLower, hc] at hword
  cases hword

theorem mentions_append_of_last_isWord (hw : Named word)
    (hs : s.getLast?.any isWord = false) :
    Mentions word (s ++ t) ↔ Mentions word s ∨ Mentions word t := by
  refine mentions_append_of_last fun c hc => hw.notMem ?_
  simpa [hc] using hs

theorem mentions_append_of_head_isWord (hw : Named word) (ht : t.head?.any isWord = false) :
    Mentions word (s ++ t) ↔ Mentions word s ∨ Mentions word t := by
  refine mentions_append_of_head fun c hc => hw.notMem ?_
  simpa [hc] using ht

theorem not_mentions_of_isWord (hw : Named word) (ht : ∀ c ∈ t, isWord c = false) :
    ¬ Mentions word t := by
  intro h
  have hne := hw.1
  cases hword : word with
  | nil => exact hne hword
  | cons d rest =>
    have hd : d ∈ t.map asciiLower := h.subset (hword ▸ List.mem_cons_self)
    obtain ⟨c, hc, he⟩ := List.mem_map.1 hd
    exact hw.notMem (ht c hc) (he ▸ hword ▸ List.mem_cons_self)

theorem mentions_cons (hw : Named word) {c : Char} (hc : isWord c = false) :
    Mentions word (s ++ c :: t) ↔ Mentions word s ∨ Mentions word t := by
  rw [mentions_append_of_head_isWord hw (by simpa using hc), ← List.singleton_append,
    mentions_append_of_last_isWord hw (by simpa using hc)]
  have hnot : ¬ Mentions word [c] := not_mentions_of_isWord hw (by simpa using hc)
  simp [hnot]

theorem not_mentions_of_blank (hw : Named word) (ht : t.all isBlank = true) : ¬ Mentions word t :=
  not_mentions_of_isWord hw fun c hc => isWord_of_isBlank (List.all_eq_true.1 ht c hc)

theorem mentions_trim (hw : Named word) : Mentions word (trim t) ↔ Mentions word t := by
  obtain ⟨lead, trail, hl, ht, he⟩ := exists_trim t
  conv => rhs; rw [he]
  rw [mentions_append_of_last_isWord hw (getLast?_any_isWord_of_blank hl),
    mentions_append_of_head_isWord hw (head?_any_isWord_of_blank ht)]
  simp [not_mentions_of_blank hw hl, not_mentions_of_blank hw ht]

theorem mentions_split (hw : Named word) (text : List Char) :
    (∃ arg ∈ Arguments.split text, Mentions word arg) ↔ Mentions word text := by
  have hcut := Arguments.text_cut ⟨false, 0⟩ text
  have hpieces : ∀ (first : List Char) (others : List (List Char)),
      Mentions word (first ++ others.flatMap fun piece => ',' :: piece) ↔
        ∃ piece ∈ first :: others, Mentions word piece := by
    intro first others
    induction others generalizing first with
    | nil => simp
    | cons piece others ih =>
      rw [List.flatMap_cons, List.cons_append, mentions_cons hw (by decide), ih]
      simp
  conv => rhs; rw [← hcut]
  rw [hpieces]
  constructor
  · rintro ⟨_, ha, h⟩
    obtain ⟨piece, hp, rfl⟩ := List.mem_map.1 ha
    exact ⟨piece, hp, (mentions_trim hw).1 h⟩
  · rintro ⟨piece, hp, h⟩
    exact ⟨trim piece, List.mem_map_of_mem hp, (mentions_trim hw).2 h⟩

/-- A pattern whose phrases mention a word exactly if their replacements do, leaves a text with it or
without it. -/
theorem Phrasal.mentions_substitute {p : Scan (List Char)} (h : Phrasal p) (hw : Named word)
    (hsame : Yields p fun meaning hit => (Mentions word meaning ↔ Mentions word hit))
    (text : List Char) : Mentions word (p.substitute text) ↔ Mentions word text := by
  have hsubstitutes : ∀ {before text out}, Substitutes p before text out →
      (Mentions word out ↔ Mentions word text) := by
    intro before text out hr
    induction hr with
    | nowhere => rfl
    | @first before front hit back meaning out _ hread _ _ ih =>
      have hp : Phrase hit meaning := by simpa using h.phrase _ _ _ hread
      have hm : Mentions word meaning ↔ Mentions word hit := by simpa using hsame _ _ _ hread
      obtain ⟨hstart, hback⟩ := h.boundaries hread
      have hfront : front.getLast?.any isWord = false := not_isWord_of_or hstart
      have hending : meaning.getLast?.any isWord = false := by
        obtain ⟨d, hl, hd⟩ := (Option.any_eq_true _ _).1 hp.ending
        simpa [hl] using (Bool.and_eq_true_iff.1 hd).1
      rw [mentions_append_of_last_isWord hw hfront, mentions_append_of_last_isWord hw hending,
        mentions_append_of_last_isWord hw hfront, mentions_append_of_head_isWord hw hback, hm, ih]
  exact hsubstitutes (h.substitutes text)

theorem Mentions.fold (hw : Named word) (h : Mentions word t) : word <:+: t.map foldCase := by
  obtain ⟨x, y, he⟩ := h
  have hmap : ∀ l : List Char, (∀ d ∈ l.map asciiLower, d.toNat < 0x80) →
      l.map foldCase = l.map asciiLower := fun l hl =>
    List.map_congr_left fun c hc => foldCase_eq_asciiLower (hl _ (List.mem_map_of_mem hc))
  obtain ⟨tx, ty, rfl, hx, hy⟩ := List.append_eq_map_iff.1 he
  obtain ⟨t₁, t₂, rfl, h₁, h₂⟩ := List.append_eq_map_iff.1 hx.symm
  refine ⟨t₁.map foldCase, ty.map foldCase, ?_⟩
  have hword : t₂.map foldCase = word := by
    rw [hmap t₂, h₂]
    intro d hd
    rw [h₂] at hd
    have hd := List.all_eq_true.1 hw.2 d hd
    simp only [Bool.and_eq_true, decide_eq_true_eq] at hd
    exact hd.1
  rw [List.map_append, List.map_append, hword]

/-- The transform keeps what the arguments of a call mention, and brings in nothing. -/
def Faithful (word : List Char) (transform : List (List Char) → Option (List Char)) : Prop :=
  ∀ args text, transform args = some text → ∀ back,
    (Mentions word (text ++ back) ↔ (∃ arg ∈ args, Mentions word arg) ∨ Mentions word back)

variable {function : List Char} {before : Option Char} {rule : CallRule}

theorem mentions_opens (hw : Named word)
    (hname : ¬ word <:+: function.map foldCase) {o : List Char} (ho : Opens function o) :
    Mentions word (o ++ t) ↔ Mentions word t := by
  obtain ⟨name, blanks, rfl, hn, hb⟩ := ho
  have hno : ¬ Mentions word name := fun h => hname (hn ▸ h.fold hw)
  rw [List.append_assoc, List.append_assoc, List.singleton_append, ← List.append_assoc,
    mentions_cons hw (by decide), mentions_append_of_head_isWord hw]
  · simp [hno, not_mentions_of_blank hw hb]
  · exact head?_any_isWord_of_blank hb

theorem mentions_parentheses (hw : Named word) {opener : Option (List Char)}
    (ho : (Token.opening opener).Regular function before) (front x y : List Char) :
    Mentions word (front ++ (opener.getD ['('] ++ (x ++ [')']) ++ y)) ↔
      Mentions word (front ++ opener.getD ['(']) ∨ Mentions word x ∨ Mentions word y := by
  have hl : (front ++ opener.getD ['(']).getLast?.any isWord = false := by
    rw [List.getLast?_append, ho.getLast?_opening, Option.some_or]
    decide
  have hcons := mentions_cons hw (s := x) (t := y) (c := ')') (by decide)
  rw [← hcons, ← mentions_append_of_last_isWord hw hl]
  simp

/-- A call of another word mentions a word, replaced or not, exactly if what is inside does. -/
theorem mentions_settled (hw : Named word) (hname : ¬ word <:+: function.map foldCase)
    (ht : Faithful word rule.transform) {opener : Option (List Char)}
    (ho : (Token.opening opener).Regular function before) {front : List Char}
    (hfront : front.getLast?.any isWord = true → before.any isWord = true) (inside tail : List Char) :
    Mentions word (front ++ (rule.settled opener inside ++ tail)) ↔
      Mentions word (front ++ opener.getD ['(']) ∨ Mentions word inside ∨ Mentions word tail := by
  rw [CallRule.settled]
  cases hrep : rule.replacement opener inside with
  | none => simpa using mentions_parentheses hw ho front inside tail
  | some text =>
    obtain ⟨o, rfl, he⟩ := Option.bind_eq_some_iff.1 hrep
    have hf : front.getLast?.any isWord = false := by
      cases hl : front.getLast?.any isWord with
      | false => rfl
      | true => exact absurd (hfront hl) (by simp [ho.2])
    have hopener : ¬ Mentions word o := by
      intro hm
      have hnil : ¬ Mentions word ([] : List Char) := not_mentions_of_isWord hw (by simp)
      rw [← List.append_nil o, mentions_opens hw hname ho.1] at hm
      exact hnil hm
    rw [Option.getD_some, Option.getD_some, mentions_append_of_last_isWord hw hf,
      mentions_append_of_last_isWord hw hf, ht _ _ he, mentions_split hw]
    simp [hopener]

namespace Forest

theorem mentions_evaluate (hw : Named word) (hname : ¬ word <:+: function.map foldCase)
    (ht : Faithful word rule.transform) {f : Forest} (h : RegularFrom function before f.tokens) {front : List Char}
    (hfront : front.getLast?.any isWord = true → before.any isWord = true) :
    Mentions word (front ++ f.evaluate rule) ↔ Mentions word (front ++ f.source) := by
  induction f generalizing before front with
  | nil => rfl
  | literal text rest ih =>
    have hrest : Mentions word (front ++ text ++ rest.evaluate rule) ↔
        Mentions word (front ++ text ++ rest.source) := ih h.2 (by
      rw [Token.source, h.1.2, List.getLast?_append, h.1.2]
      exact id)
    change Mentions word (front ++ (text ++ _)) ↔ Mentions word (front ++ (text ++ rest.source))
    simpa using hrest
  | other c rest ih =>
    have hrest : Mentions word (front ++ [c] ++ rest.evaluate rule) ↔
        Mentions word (front ++ [c] ++ rest.source) := ih h.2 (by simp [Token.source])
    change Mentions word (front ++ ([c] ++ _)) ↔ Mentions word (front ++ ([c] ++ rest.source))
    simpa using hrest
  | group opener inside rest ihi ihr =>
    obtain ⟨ho, hi, hr⟩ := regularFrom_group h
    have hinside : Mentions word (inside.evaluate rule) ↔ Mentions word inside.source := by
      simpa using ihi hi (show ([] : List Char).getLast?.any isWord = true → _ by simp)
    have hrest : Mentions word (rest.evaluate rule) ↔ Mentions word rest.source := by
      simpa using ihr hr (show ([] : List Char).getLast?.any isWord = true → _ by simp)
    rw [source_group, mentions_parentheses hw ho, evaluate, ← hinside, ← hrest]
    exact mentions_settled hw hname ht ho hfront _ _

theorem mentions_source_of_replacements {f : Forest} (h : RegularFrom function before f.tokens)
    (hname : ∀ o, Opens function o → o <:+: f.source → Mentions word o)
    (hr : 0 < f.replacements rule) : Mentions word f.source := by
  induction f generalizing before with
  | nil => exact absurd hr (by simp [replacements])
  | literal text rest ih =>
    have hinfix : rest.source <:+: text ++ rest.source := ⟨text, [], by simp⟩
    exact (ih h.2 (fun o ho hs => hname o ho (hs.trans hinfix)) hr).mono hinfix
  | other c rest ih =>
    have hinfix : rest.source <:+: c :: rest.source := ⟨[c], [], by simp⟩
    exact (ih h.2 (fun o ho hs => hname o ho (hs.trans hinfix)) hr).mono hinfix
  | group opener inside rest ihi ihr =>
    obtain ⟨ho, hi, hr'⟩ := regularFrom_group h
    rw [source_group] at hname ⊢
    have hin : inside.source <:+: opener.getD ['('] ++ (inside.source ++ [')']) ++ rest.source :=
      ⟨opener.getD ['('], [')'] ++ rest.source, by simp⟩
    have hrest : rest.source <:+: opener.getD ['('] ++ (inside.source ++ [')']) ++ rest.source :=
      ⟨opener.getD ['('] ++ (inside.source ++ [')']), [], by simp⟩
    by_cases h₁ : 0 < inside.replacements rule
    · exact (ihi hi (fun o ho hs => hname o ho (hs.trans hin)) h₁).mono hin
    by_cases h₂ : 0 < rest.replacements rule
    · exact (ihr hr' (fun o ho hs => hname o ho (hs.trans hrest)) h₂).mono hrest
    · cases opener with
      | none =>
        rw [replacements] at hr
        simp only [CallRule.replacement, Option.bind_none, Option.isSome_none, Bool.false_eq_true,
          if_false] at hr
        omega
      | some o =>
        have hopener : o <:+: (some o).getD ['('] ++ (inside.source ++ [')']) ++ rest.source :=
          ⟨[], (inside.source ++ [')']) ++ rest.source, by simp⟩
        exact (hname o ho.1 hopener).mono hopener

theorem mentions_evaluate_of_replacements {f : Forest}
    (ht : ∀ args text, rule.transform args = some text → Mentions word text)
    (hr : 0 < f.replacements rule) : Mentions word (f.evaluate rule) := by
  induction f with
  | nil => exact absurd hr (by simp [replacements])
  | literal text rest ih => exact (ih hr).mono ⟨text, [], by simp [evaluate]⟩
  | other c rest ih => exact (ih hr).mono ⟨[c], [], by simp [evaluate]⟩
  | group opener inside rest ihi ihr =>
    rw [evaluate, CallRule.settled]
    cases hrep : rule.replacement opener (inside.evaluate rule) with
    | some text =>
      obtain ⟨o, rfl, he⟩ := Option.bind_eq_some_iff.1 hrep
      exact (ht _ _ he).mono ⟨[], rest.evaluate rule, by simp⟩
    | none =>
      by_cases h₁ : 0 < inside.replacements rule
      · exact (ihi h₁).mono ⟨opener.getD ['('], [')'] ++ rest.evaluate rule, by simp⟩
      · have h₂ : 0 < rest.replacements rule := by
          rw [replacements, hrep] at hr
          simp only [Option.isSome_none, Bool.false_eq_true, if_false] at hr
          omega
        exact (ihr h₂).mono ⟨opener.getD ['('] ++ inside.evaluate rule ++ [')'], [], by simp⟩

end Forest

namespace CallRule

/-- A rule of another word leaves a closed text with a word or without it. -/
theorem mentions_output (hw : Named word) (hf : Named rule.function)
    (hname : ¬ word <:+: rule.function.map foldCase) (ht : Faithful word rule.transform)
    {text : List Char} (h : Closed text) :
    Mentions word (rule.output text) ↔ Mentions word text := by
  obtain ⟨f, -, hregular, rfl, ho⟩ := exists_forest_output hf h
  rw [ho]
  have hfront : ([] : List Char).getLast?.any isWord = true → (none : Option Char).any isWord = true :=
    id
  exact f.mentions_evaluate hw hname ht hregular hfront

/-- A rule that replaces the calls of a word by mentions of it leaves a closed text with the word, or
leaves it alone. -/
theorem mentions_output_or_eq (hf : Named rule.function)
    (ht : ∀ args text, rule.transform args = some text → Mentions word text) {text : List Char}
    (h : Closed text) : Mentions word (rule.output text) ∧
        ((∀ o, Opens rule.function o → o <:+: text → Mentions word o) → Mentions word text) ∨
      rule.output text = text := by
  obtain ⟨f, -, hregular, rfl, ho⟩ := exists_forest_output hf h
  rw [ho]
  by_cases hr : 0 < f.replacements rule
  · exact .inl ⟨f.mentions_evaluate_of_replacements ht hr, fun hname =>
      f.mentions_source_of_replacements hregular hname hr⟩
  · exact .inr (f.evaluate_of_replacements_eq_zero (Nat.eq_zero_of_not_pos hr))

end CallRule

end ReportMigration.Sql
