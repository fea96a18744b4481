import Mathlib
import ReportMigration.Markup.Selector
import ReportMigration.Proofs.Text.Folding
import ReportMigration.Proofs.Text.Trim

/-!
# Selectors as they are written

A selector is written without the quotes that stood around the value of its condition. So it is read
again as it is, unless there is white space at an end of the value, which only quotes can keep.
-/

namespace ReportMigration.Markup.Selector

open Text

variable {s : Selector} {text element name value : List Char}

theorem isNameChar_of_isBlank {c : Char} (h : isBlank c = true) : isNameChar c = false := by
  simpa using of_isBlank (!isNameChar ·) (by decide +kernel) h

theorem isName_iff : isName text = true ↔ text ≠ [] ∧ ∀ c ∈ text, isNameChar c = true := by
  simp [isName]

theorem ne_of_isName (h : isName text = true) {d : Char} (hd : isNameChar d = false) :
    ∀ c ∈ text, (c != d) = true := by
  intro c hc
  rw [bne_iff_ne]
  rintro rfl
  rw [(isName_iff.1 h).2 c hc] at hd
  cases hd

theorem tight_of_isName (h : isName text = true) : Tight text := by
  obtain ⟨hne, hall⟩ := isName_iff.1 h
  have hink : ∀ c ∈ text, isBlank c = false := by
    intro c hc
    by_contra hb
    have hname := hall c hc
    rw [isNameChar_of_isBlank (by simpa using hb)] at hname
    cases hname
  rw [tight_iff, List.head?_eq_some_head hne, List.getLast?_eq_some_getLast hne]
  exact ⟨congrArg some (hink _ (List.head_mem hne)), congrArg some (hink _ (List.getLast_mem hne))⟩

/-- The text neither begins nor ends with a quote. -/
def Unquoted (text : List Char) : Prop :=
  text.head?.any isQuote = false ∧ text.getLast?.any isQuote = false

theorem trimQuotes_sublist (text : List Char) : (trimQuotes text).Sublist text := by
  have hend : (trimQuotes text).reverse.Sublist (text.dropWhile isQuote).reverse := by
    rw [trimQuotes, List.reverse_reverse]
    exact List.dropWhile_sublist _
  exact (List.reverse_sublist.1 hend).trans (List.dropWhile_sublist _)

theorem unquoted_trimQuotes (text : List Char) : Unquoted (trimQuotes text) := by
  have hfirst : ∀ l : List Char, (l.dropWhile isQuote).head?.any isQuote = false := by
    intro l
    have hhead := List.head?_dropWhile_not isQuote l
    cases hd : (l.dropWhile isQuote).head? with
    | none => rfl
    | some c =>
      rw [hd] at hhead
      simpa using hhead
  have hend : trimQuotes text <+: text.dropWhile isQuote := by
    rw [← List.reverse_suffix, trimQuotes, List.reverse_reverse]
    exact List.dropWhile_suffix _
  refine ⟨?_, ?_⟩
  · obtain ⟨rest, he⟩ := hend
    cases ht : trimQuotes text with
    | nil => rfl
    | cons c kept =>
      have hhead := hfirst text
      rw [← he, ht] at hhead
      exact hhead
  · rw [trimQuotes, List.getLast?_reverse]
    exact hfirst _

theorem trimQuotes_of_unquoted (h : Unquoted text) : trimQuotes text = text := by
  have hkeep : ∀ l : List Char, l.head?.any isQuote = false → l.dropWhile isQuote = l := by
    intro l hl
    cases l with
    | nil => rfl
    | cons c l =>
      have hc : isQuote c = false := by simpa using hl
      exact List.dropWhile_cons_of_neg (by simp [hc])
  rw [trimQuotes, hkeep text h.1, hkeep _ (List.head?_reverse ▸ h.2), List.reverse_reverse]

theorem cut_append {d : Char} (h : ∀ c ∈ text, (c != d) = true) (rest : List Char) :
    (text ++ d :: rest).takeWhile (· != d) = text ∧
      (text ++ d :: rest).dropWhile (· != d) = d :: rest := by
  rw [List.takeWhile_append_of_pos h, List.dropWhile_append_of_pos h,
    List.takeWhile_cons_of_neg (by simp), List.dropWhile_cons_of_neg (by simp), List.append_nil]
  exact ⟨rfl, rfl⟩

theorem trim_of_tight (h : Tight text) : trim text = text := by
  simpa [trimStart, trimEnd] using trim_append [] [] h

theorem trim_sublist (text : List Char) : (trim text).Sublist text := by
  obtain ⟨lead, trail, -, -, he⟩ := exists_trim text
  conv => rhs; rw [he]
  exact (List.sublist_append_left _ _).trans (List.sublist_append_right _ _)

/-- The value that is read of a written one, or the fault if nothing is left of it. -/
def readValue (written : List Char) : Except Fault (List Char) :=
  let value := trimQuotes (trim written)
  if value.isEmpty then .error .condition else .ok value

theorem readValue_eq_ok {written : List Char} : readValue written = .ok value ↔
    value = trimQuotes (trim written) ∧ value ≠ [] := by
  unfold readValue
  dsimp only
  split
  · next hnone =>
    refine iff_of_false nofun ?_
    rintro ⟨rfl, hne⟩
    exact hne (List.isEmpty_iff.1 hnone)
  · next hsome =>
    constructor
    · rintro ⟨⟩
      exact ⟨rfl, fun hnone => hsome (List.isEmpty_iff.2 hnone)⟩
    · rintro ⟨rfl, -⟩
      rfl

theorem unquoted_of_readValue {written : List Char} (h : readValue written = .ok value) :
    value ≠ [] ∧ Unquoted value := by
  obtain ⟨rfl, hne⟩ := readValue_eq_ok.1 h
  exact ⟨hne, unquoted_trimQuotes _⟩

/-- A value is read as it is written exactly if there is neither white space nor a quote at either
end of it. -/
theorem readValue_eq_self : readValue value = .ok value ↔ Tight value ∧ Unquoted value := by
  constructor
  · intro h
    obtain ⟨he, hne⟩ := readValue_eq_ok.1 h
    -- Both cuts together took nothing away, so the first took nothing.
    have hlong : value.length ≤ (trim value).length := by
      conv => lhs; rw [he]
      exact (trimQuotes_sublist _).length_le
    have htrim : trim value = value := (trim_sublist value).eq_of_length_le hlong
    have htight := trim_eq_nil_or_tight value
    rw [htrim] at htight
    exact ⟨htight.resolve_left hne, (unquoted_of_readValue h).2⟩
  · rintro ⟨htight, hquotes⟩
    have hkept : value = trimQuotes (trim value) := by
      rw [trim_of_tight htight, trimQuotes_of_unquoted hquotes]
    exact readValue_eq_ok.2 ⟨hkept, htight.ne_nil⟩

theorem parseCondition_append (hn : isName name = true) (written : List Char) :
    parseCondition (name ++ '=' :: written) = (readValue written).map (name, ·) := by
  have heq : isNameChar '=' = false := by decide
  obtain ⟨htake, hdrop⟩ := cut_append (ne_of_isName hn heq) written
  rw [parseCondition, hdrop]
  dsimp only
  rw [htake, trim_of_tight (tight_of_isName hn), hn, readValue, Bool.not_true, Bool.false_or]
  split <;> rfl

theorem parse_display_condition (he : isName element = true) (hn : isName name = true)
    (written : List Char) :
    parse (display ⟨element, some (name, written)⟩) =
      (readValue written).map fun value => ⟨element, some (name, value)⟩ := by
  have hbracket : isNameChar '[' = false := by decide
  have hspelt : display ⟨element, some (name, written)⟩ =
      element ++ '[' :: ((name ++ '=' :: written) ++ [']']) := by
    simp [display]
  have htight : Tight (display ⟨element, some (name, written)⟩) := by
    rw [hspelt]
    exact tight_append (tight_of_isName he).1 (by simp [List.getLast?_cons]; decide)
  rw [parse, trim_of_tight htight, hspelt, (cut_append (ne_of_isName he hbracket) _).1,
    (cut_append (ne_of_isName he hbracket) _).2]
  dsimp only
  rw [List.getLast?_concat, if_neg (by simp), he, if_neg (by simp), List.dropLast_concat,
    parseCondition_append hn]
  cases readValue written <;> rfl

theorem parse_display_element (he : isName element = true) :
    parse (display ⟨element, none⟩) = .ok ⟨element, none⟩ := by
  have hbracket : isNameChar '[' = false := by decide
  have hnone : element.dropWhile (· != '[') = [] :=
    List.dropWhile_eq_nil_iff.2 (ne_of_isName he hbracket)
  have hall : element.takeWhile (· != '[') = element :=
    List.takeWhile_eq_self_iff.2 (ne_of_isName he hbracket)
  rw [parse, display]
  dsimp only
  rw [trim_of_tight (tight_of_isName he), hnone, hall]
  exact if_pos he

/-- What a selector that was read is made of: names, and a value without quotes at its ends. -/
structure Legible (s : Selector) : Prop where
  element : isName s.element = true
  condition : ∀ name value, s.condition = some (name, value) →
    isName name = true ∧ value ≠ [] ∧ Unquoted value

theorem parseCondition_eq_ok {condition : List Char × List Char}
    (h : parseCondition text = .ok condition) :
    isName condition.1 = true ∧ condition.2 ≠ [] ∧ Unquoted condition.2 := by
  rw [parseCondition] at h
  split at h
  · cases h
  · dsimp only at h
    split at h
    · cases h
    · next hgood =>
      cases h
      rw [Bool.or_eq_true, not_or] at hgood
      exact ⟨by simpa using hgood.1, by simpa using hgood.2, unquoted_trimQuotes _⟩

theorem legible_of_parse (h : parse text = .ok s) : s.Legible := by
  rw [parse] at h
  split at h
  · split at h
    · next he =>
      cases h
      exact ⟨he, nofun⟩
    · cases h
  · split at h
    · cases h
    · split at h
      · cases h
      · next he =>
        cases hc : parseCondition (List.dropLast _) with
        | error fault =>
          rw [hc] at h
          cases h
        | ok condition =>
          rw [hc] at h
          cases h
          refine ⟨by simpa using he, ?_⟩
          rintro name value ⟨⟩
          exact parseCondition_eq_ok hc

theorem Legible.parse_display (h : s.Legible) : parse s.display =
    match s.condition with
    | none => .ok s
    | some (name, written) =>
      (readValue written).map fun value => ⟨s.element, some (name, value)⟩ := by
  obtain ⟨element, condition⟩ := s
  cases condition with
  | none => exact parse_display_element h.element
  | some condition => exact parse_display_condition h.element (h.condition _ _ rfl).1 _

/-- A legible selector is read again as it is exactly if its value, where it has one, neither begins
nor ends with white space. -/
theorem Legible.parse_display_eq_self (h : s.Legible) : parse s.display = .ok s ↔
    ∀ name value, s.condition = some (name, value) → Tight value := by
  rw [h.parse_display]
  cases hc : s.condition with
  | none => exact iff_of_true rfl nofun
  | some condition =>
    obtain ⟨name, value⟩ := condition
    have hsame : ⟨s.element, some (name, value)⟩ = s := hc ▸ rfl
    have hread : (readValue value).map (fun kept => (⟨s.element, some (name, kept)⟩ : Selector)) =
        .ok s ↔ readValue value = .ok value := by
      conv => lhs; rhs; rw [← hsame]
      cases readValue value <;> simp [Except.map]
    rw [hread, readValue_eq_self, and_iff_left (h.condition name value hc).2.2]
    exact ⟨fun htight _ _ he => by cases he; exact htight, fun htight => htight name value rfl⟩

theorem tight_and_unquoted_iff : Tight value ∧ Unquoted value ↔ value ≠ [] ∧
    ∀ c, value.head? = some c ∨ value.getLast? = some c → isBlank c = false ∧ isQuote c = false := by
  by_cases hne : value = []
  · subst hne
    exact iff_of_false (fun h => h.1.ne_nil rfl) fun h => h.1 rfl
  · rw [tight_iff, Unquoted, List.head?_eq_some_head hne, List.getLast?_eq_some_getLast hne]
    simp only [Option.map_some, Option.some.injEq, Option.any_some, and_iff_right hne, or_imp,
      forall_and, forall_eq']

/-- Any selector, however it was made, is read again as it is exactly if it names an element and,
where it has a condition, an attribute with a value that has text and neither begins nor ends with white
space or a quote. -/
theorem parse_display_eq_self_iff (s : Selector) : parse s.display = .ok s ↔
    isName s.element = true ∧ ∀ name value, s.condition = some (name, value) →
      isName name = true ∧ value ≠ [] ∧ ∀ c, value.head? = some c ∨ value.getLast? = some c →
        isBlank c = false ∧ isQuote c = false := by
  constructor
  · intro h
    have hlegible := legible_of_parse h
    refine ⟨hlegible.element, fun name value hc => ?_⟩
    obtain ⟨hname, -, hquotes⟩ := hlegible.condition name value hc
    have htight := hlegible.parse_display_eq_self.1 h name value hc
    exact ⟨hname, tight_and_unquoted_iff.1 ⟨htight, hquotes⟩⟩
  · rintro ⟨helement, hcondition⟩
    have hlegible : s.Legible := ⟨helement, fun name value hc =>
      let ⟨hname, hends⟩ := hcondition name value hc
      ⟨hname, hends.1, (tight_and_unquoted_iff.2 hends).2⟩⟩
    exact hlegible.parse_display_eq_self.2 fun name value hc =>
      (tight_and_unquoted_iff.2 (hcondition name value hc).2).1

/-- Some selector is read of the written form of a legible one exactly if something is left of its
value, where it has one, without the white space at its ends and the quotes inside of that. -/
theorem Legible.exists_parse_display (h : s.Legible) : (∃ again, parse s.display = .ok again) ↔
    ∀ name value, s.condition = some (name, value) → trimQuotes (trim value) ≠ [] := by
  rw [h.parse_display]
  cases hc : s.condition with
  | none => exact iff_of_true ⟨s, rfl⟩ nofun
  | some condition =>
    obtain ⟨name, value⟩ := condition
    have hread : (∃ again, (readValue value).map
        (fun kept => (⟨s.element, some (name, kept)⟩ : Selector)) = .ok again) ↔
          ∃ kept, readValue value = .ok kept := by
      cases readValue value <;> simp [Except.map]
    simp only [hread, readValue_eq_ok]
    constructor
    · rintro ⟨_, rfl, hne⟩ _ _ ⟨⟩
      exact hne
    · exact fun hne => ⟨_, rfl, hne name value rfl⟩

/-- A selector that was read is read again as it is exactly if its value neither begins nor ends
with white space, and it is read again at all exactly if something is left of its value. -/
theorem parse_display_of_parse (h : parse text = .ok s) :
    (parse s.display = .ok s ↔
        ∀ name value, s.condition = some (name, value) → Tight value) ∧
      ((∃ again, parse s.display = .ok again) ↔
        ∀ name value, s.condition = some (name, value) → trimQuotes (trim value) ≠ []) :=
  ⟨(legible_of_parse h).parse_display_eq_self, (legible_of_parse h).exists_parse_display⟩

theorem parse_display_of_parse_quoted :
    let text := " property[ name = \"it's \" ] ".toList
    let s : Selector := ⟨"property".toList, some ("name".toList, "it's ".toList)⟩
    parse text = .ok s ∧
      (parse s.display = .ok s ↔
        ∀ name value, s.condition = some (name, value) → Tight value) ∧
      ((∃ again, parse s.display = .ok again) ↔
        ∀ name value, s.condition = some (name, value) → trimQuotes (trim value) ≠ []) := by
  have h : parse " property[ name = \"it's \" ] ".toList =
      .ok ⟨"property".toList, some ("name".toList, "it's ".toList)⟩ := by
    decide +kernel
  exact ⟨h, parse_display_of_parse h⟩

/-- White space inside of the quotes is lost when the selector is read again, which then selects
another element. -/
theorem not_parse_display_blank :
    let s : Selector := ⟨"property".toList, some ("name".toList, " x ".toList)⟩
    let again : Selector := ⟨"property".toList, some ("name".toList, "x".toList)⟩
    let tag := "property name=\" x \"".toList
    parse "property[name=\" x \"]".toList = .ok s ∧ parse s.display = .ok again ∧ again ≠ s ∧
      s.selects tag = true ∧ again.selects tag = false := by
  decide +kernel

end ReportMigration.Markup.Selector
