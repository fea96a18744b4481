import Mathlib
import ReportMigration.Text.Blank

/-!
# Trimming around a text

Trimming leaves a text alone that has other text than white space at either end, and what stands
around such a text is trimmed apart from it.
-/

namespace ReportMigration.Text

/-- The text begins and ends with something other than white space. -/
def Tight (text : List Char) : Prop :=
  text.head?.any (fun c => !isBlank c) = true ∧ text.getLast?.any (fun c => !isBlank c) = true

instance (text : List Char) : Decidable (Tight text) :=
  inferInstanceAs (Decidable (_ ∧ _))

variable {s t : List Char}

theorem Tight.ne_nil (h : Tight t) : t ≠ [] := by
  rintro rfl
  exact absurd h.1 (by decide)

theorem tight_iff : Tight t ↔ t.head?.map isBlank = some false ∧ t.getLast?.map isBlank = some false := by
  unfold Tight
  cases t.head? <;> cases t.getLast? <;> simp

theorem getLast?_append_any {test : Char → Bool} (h : t.getLast?.any test = true) :
    (s ++ t).getLast?.any test = true := by
  obtain ⟨c, hc, htest⟩ := (Option.any_eq_true _ _).1 h
  rw [List.getLast?_append, hc]
  exact htest

theorem tight_append (hs : s.head?.any (fun c => !isBlank c) = true)
    (ht : t.getLast?.any (fun c => !isBlank c) = true) : Tight (s ++ t) := by
  constructor
  · cases s with
    | nil => exact absurd hs (by decide)
    | cons c s => exact hs
  · exact getLast?_append_any ht

theorem trimStart_eq_self (h : t.head?.any (fun c => !isBlank c) = true) : trimStart t = t := by
  cases t with
  | nil => rfl
  | cons c t =>
    have hc : isBlank c = false := by simpa using h
    rw [trimStart, List.dropWhile_cons_of_neg (by simp [hc])]

theorem trimStart_eq_nil (h : t.all isBlank = true) : trimStart t = [] := by
  induction t with
  | nil => rfl
  | cons c t ih =>
    obtain ⟨hc, ht⟩ : isBlank c = true ∧ t.all isBlank = true := by simpa using h
    rw [trimStart, List.dropWhile_cons_of_pos hc]
    exact ih ht

theorem trimEnd_eq_nil (h : t.all isBlank = true) : trimEnd t = [] := by
  rw [trimEnd, List.reverse_eq_nil_iff]
  exact trimStart_eq_nil (by rwa [List.all_reverse])

theorem trimStart_append (hs : t.head?.any (fun c => !isBlank c) = true) :
    trimStart (s ++ t) = trimStart s ++ t := by
  rw [trimStart, trimStart, List.dropWhile_append]
  split
  · next he =>
    rw [List.isEmpty_iff.1 he, List.nil_append]
    exact trimStart_eq_self hs
  · rfl

theorem trimEnd_append (hs : s.getLast?.any (fun c => !isBlank c) = true) :
    trimEnd (s ++ t) = s ++ trimEnd t := by
  have hr := trimStart_append (s := t.reverse) (t := s.reverse) (by rwa [List.head?_reverse])
  rw [trimStart, trimStart] at hr
  rw [trimEnd, trimEnd, List.reverse_append, hr, List.reverse_append, List.reverse_reverse]

theorem trimEnd_isPrefix (x : List Char) : trimEnd x <+: x := by
  rw [← List.reverse_suffix, trimEnd, List.reverse_reverse]
  exact List.dropWhile_suffix isBlank

theorem trim_append (before after : List Char) (h : Tight t) :
    trim (before ++ (t ++ after)) = trimStart before ++ (t ++ trimEnd after) := by
  have hhead : (t ++ after).head?.any (fun c => !isBlank c) = true := by
    cases t with
    | nil => exact absurd rfl h.ne_nil
    | cons c t => exact h.1
  rw [trim, trimStart_append hhead, ← List.append_assoc, trimEnd_append (getLast?_append_any h.2),
    List.append_assoc]

/-- What remains of a text has text at both ends, or nothing remains. -/
theorem trim_eq_nil_or_tight (text : List Char) : trim text = [] ∨ Tight (trim text) := by
  have hend : ∀ l : List Char, trimEnd l = [] ∨
      (trimEnd l).getLast?.any (fun c => !isBlank c) = true := by
    intro l
    rw [trimEnd, List.getLast?_reverse, List.reverse_eq_nil_iff]
    cases hd : l.reverse.dropWhile isBlank with
    | nil => exact .inl rfl
    | cons c rest =>
      refine .inr ?_
      have hc := List.head?_dropWhile_not isBlank l.reverse
      rw [hd] at hc
      simpa using hc
  rcases hend (trimStart text) with h | h
  · exact .inl h
  · refine .inr ⟨?_, h⟩
    cases hd : trimStart text with
    | nil =>
      rw [hd] at h
      exact absurd h (by decide)
    | cons c rest =>
      have hc := List.head?_dropWhile_not isBlank text
      rw [show text.dropWhile isBlank = c :: rest from hd] at hc
      have hc : isBlank c = false := by simpa using hc
      have hkeep : trimEnd (c :: rest) = c :: trimEnd rest :=
        trimEnd_append (s := [c]) (by simp [hc])
      rw [trim, hd, hkeep]
      simp [hc]

theorem exists_trim (text : List Char) :
    ∃ lead trail, lead.all isBlank = true ∧ trail.all isBlank = true ∧
      text = lead ++ (trim text ++ trail) := by
  refine ⟨text.takeWhile isBlank, ((trimStart text).reverse.takeWhile isBlank).reverse,
    List.all_takeWhile, ?_, ?_⟩
  · rw [List.all_reverse]
    exact List.all_takeWhile
  · have hr : (trimStart text).reverse.takeWhile isBlank ++
        (trimStart text).reverse.dropWhile isBlank = (trimStart text).reverse :=
      List.takeWhile_append_dropWhile
    have ht : trim text ++ ((trimStart text).reverse.takeWhile isBlank).reverse =
        trimStart text := by
      rw [trim, trimEnd, ← List.reverse_append, hr, List.reverse_reverse]
    rw [ht, trimStart, List.takeWhile_append_dropWhile]

theorem trim_eq_nil (h : t.all isBlank = true) : trim t = [] := by
  rw [trim, trimStart_eq_nil h]
  rfl

theorem trim_around {lead trail : List Char} (hl : lead.all isBlank = true)
    (ht : trail.all isBlank = true) (text : List Char) :
    trim (lead ++ (text ++ trail)) = trim text := by
  obtain ⟨left, right, hleft, hright, he⟩ := exists_trim text
  rcases trim_eq_nil_or_tight text with hnil | htight
  · rw [hnil, List.nil_append] at he
    rw [hnil, he]
    refine trim_eq_nil ?_
    simp [List.all_append, hl, ht, hleft, hright]
  · have hlead : (lead ++ left).all isBlank = true := by simp [List.all_append, hl, hleft]
    have htrail : (right ++ trail).all isBlank = true := by simp [List.all_append, ht, hright]
    have hsplit : lead ++ (text ++ trail) = (lead ++ left) ++ (trim text ++ (right ++ trail)) := by
      conv => lhs; rw [he]
      simp only [List.append_assoc]
    rw [hsplit, trim_append _ _ htight, trimStart_eq_nil hlead, trimEnd_eq_nil htrail,
      List.nil_append, List.append_nil]

def Solid (text : List Char) : Prop :=
  ∃ c ∈ text, isBlank c = false

instance (text : List Char) : Decidable (Solid text) :=
  decidable_of_iff (text.any fun c => !isBlank c) (by simp [Solid])

theorem solid_append : Solid (s ++ t) ↔ Solid s ∨ Solid t := by
  simp [Solid, or_and_right, exists_or]

theorem Tight.solid (h : Tight t) : Solid t := by
  cases t with
  | nil => exact absurd rfl h.ne_nil
  | cons c t => exact ⟨c, List.mem_cons_self, by simpa using h.1⟩

theorem trim_ne_nil : trim t ≠ [] ↔ Solid t := by
  obtain ⟨lead, trail, hl, htrail, he⟩ := exists_trim t
  constructor
  · intro hne
    have hs := ((trim_eq_nil_or_tight t).resolve_left hne).solid
    rw [he]
    exact solid_append.2 (.inr (solid_append.2 (.inl hs)))
  · rintro ⟨c, hc, hb⟩ ht
    rw [he, ht, List.nil_append] at hc
    rcases List.mem_append.1 hc with hc | hc
    · exact absurd (List.all_eq_true.1 hl c hc) (by simp [hb])
    · exact absurd (List.all_eq_true.1 htrail c hc) (by simp [hb])

end ReportMigration.Text
