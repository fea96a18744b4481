import Mathlib
import ReportMigration.Text.Blank
import ReportMigration.Text.CaseFold

/-!
# Letters that fold to ASCII

Only two characters beyond ASCII, the long s and the kelvin sign, fold to an ASCII character. What
folds like a letter or an underscore is therefore a word character, and nothing but a quote folds
like a quote.
-/

namespace ReportMigration.Text

/-- The run folds nothing to ASCII, or it is one of the two that fold a single character there. -/
private def staysBeyondAscii (run : FoldRun) : Bool :=
  0x80 ≤ run.target || (run.first == run.last && (run.first == 0x17f || run.first == 0x212a))

private theorem staysBeyondAscii_foldRuns : foldRuns.all staysBeyondAscii = true := by
  decide +kernel

private theorem foldCode_lt {runs : List FoldRun} {n : Nat}
    (hr : runs.all staysBeyondAscii = true) (hn : 0x80 ≤ n) (h : foldCode runs n < 0x80) :
    n = 0x17f ∨ n = 0x212a := by
  induction runs with
  | nil => simp only [foldCode] at h; omega
  | cons run rest ih =>
    obtain ⟨hrun, hrest⟩ : staysBeyondAscii run = true ∧ rest.all staysBeyondAscii = true := by
      simpa using hr
    simp only [foldCode] at h
    split at h
    · next hin =>
      simp only [Bool.and_eq_true, decide_eq_true_eq] at hin
      simp only [staysBeyondAscii, Bool.or_eq_true, Bool.and_eq_true, beq_iff_eq,
        decide_eq_true_eq] at hrun
      omega
    · exact ih hrest h

private theorem toNat_ofNat {n : Nat} (h : Char.ofNat n ≠ '\x00') : (Char.ofNat n).toNat = n := by
  unfold Char.ofNat at h ⊢
  split at h
  · next hv =>
    rw [dif_pos hv]
    simp [Char.ofNatAux, ← Char.toNat_val]
  · exact absurd rfl h

/-- The long s and the kelvin sign are the only characters beyond ASCII that fold into it. NUL is
left out, since it also stands for a number that is no character. -/
theorem ascii_of_foldCase {c d : Char} (h : foldCase c = d) (hd : d.toNat < 0x80)
    (h0 : d ≠ '\x00') : c.toNat < 0x80 ∨ c = 'ſ' ∨ c = '\u212a' := by
  by_cases hc : c.toNat < 0x80
  · exact .inl hc
  · right
    rw [foldCase, if_neg hc] at h
    have hv : foldCode foldRuns c.toNat = d.toNat := by
      subst h
      exact (toNat_ofNat h0).symm
    have hn := foldCode_lt staysBeyondAscii_foldRuns (by omega) (hv ▸ hd)
    rcases hn with hn | hn
    · exact .inl (Char.toNat_inj.1 hn)
    · exact .inr (Char.toNat_inj.1 hn)

/-- Folding an ASCII character keeps it in ASCII and in its class, folds nothing to NUL and does not
see whether the character was lowered before. -/
private theorem foldCase_table : ∀ n : Fin 128, let c := Char.ofNat n
    isWord (foldCase c) = isWord c ∧ (foldCase c).toNat < 0x80 ∧
      (foldCase c = '\x00' → c = '\x00') ∧ foldCase (asciiLower c) = foldCase c := by
  decide +kernel

private theorem foldCase_ascii {c : Char} (hc : c.toNat < 0x80) :
    isWord (foldCase c) = isWord c ∧ (foldCase c).toNat < 0x80 ∧
      (foldCase c = '\x00' → c = '\x00') ∧ foldCase (asciiLower c) = foldCase c := by
  simpa only [Char.ofNat_toNat] using foldCase_table ⟨c.toNat, hc⟩

theorem isWord_foldCase {c : Char} (hc : c.toNat < 0x80) : isWord (foldCase c) = isWord c :=
  (foldCase_ascii hc).1

/-- The long s and the kelvin sign are word characters, and fold to letters. -/
private theorem beyond_ascii :
    (isWord 'ſ' = true ∧ foldCase 'ſ' ≠ '\'') ∧ isWord '\u212a' = true ∧ foldCase '\u212a' ≠ '\'' := by
  decide +kernel

theorem isWord_of_foldCase_eq {c w : Char} (h : foldCase c = foldCase w) (hw : w.toNat < 0x80)
    (hword : isWord w = true) : isWord c = true := by
  obtain ⟨-, hd, h0, -⟩ := foldCase_ascii hw
  have hne : foldCase w ≠ '\x00' := by
    intro h0'
    rw [h0 h0'] at hword
    exact absurd hword (by decide)
  rcases ascii_of_foldCase h hd hne with hc | rfl | rfl
  · rw [← isWord_foldCase hc, h, isWord_foldCase hw, hword]
  · exact beyond_ascii.1.1
  · exact beyond_ascii.2.1

theorem ne_quote_of_foldCase_eq {c w : Char} (h : foldCase c = foldCase w)
    (hword : isWord w = true) : c ≠ '\'' := by
  rintro rfl
  have hq : foldCase w = '\'' := h.symm
  rcases ascii_of_foldCase hq (by decide) (by decide) with hc | rfl | rfl
  · rw [← isWord_foldCase hc, hq] at hword
    exact absurd hword (by decide)
  · exact absurd hq beyond_ascii.1.2
  · exact absurd hq beyond_ascii.2.2

/-- What holds of the control characters and the white space beyond them holds of all white space. -/
theorem of_isBlank (test : Char → Bool)
    (h : ∀ n ∈ List.range 0x21 ++ [0x85, 0xa0, 0x1680] ++ List.range' 0x2000 11
      ++ [0x2028, 0x2029, 0x202f, 0x205f, 0x3000], test (Char.ofNat n) = true)
    {c : Char} (hc : isBlank c = true) : test c = true := by
  rw [← Char.ofNat_toNat c]
  refine h _ ?_
  simp only [isBlank, Bool.or_eq_true, Bool.and_eq_true, decide_eq_true_eq, beq_iff_eq] at hc
  simp only [List.mem_append, List.mem_range, List.mem_cons, List.mem_range'_1, List.not_mem_nil]
  omega

theorem isWord_of_isBlank {c : Char} (h : isBlank c = true) : isWord c = false := by
  simpa using of_isBlank (!isWord ·) (by decide +kernel) h

theorem isBlank_of_isWord {c : Char} (h : isWord c = true) : isBlank c = false := by
  cases hb : isBlank c with
  | false => rfl
  | true => exact absurd (isWord_of_isBlank hb) (by simp [h])

theorem head?_any_isWord_of_blank {g : List Char} (h : g.all isBlank = true) :
    g.head?.any isWord = false := by
  cases hg : g.head? with
  | none => rfl
  | some c => exact isWord_of_isBlank (List.all_eq_true.1 h c (List.mem_of_head? hg))

theorem getLast?_any_isWord_of_blank {g : List Char} (h : g.all isBlank = true) :
    g.getLast?.any isWord = false := by
  cases hg : g.getLast? with
  | none => rfl
  | some c => exact isWord_of_isBlank (List.all_eq_true.1 h c (List.mem_of_getLast? hg))

/-- No character of the text is one of the given letters in either case. -/
def Avoids (letters text : List Char) : Prop :=
  ∀ c ∈ text, foldCase c ∉ letters

instance (letters text : List Char) : Decidable (Avoids letters text) :=
  decidable_of_iff (text.all fun c => !letters.contains (foldCase c)) (by simp [Avoids])

theorem Avoids.append {letters s t : List Char} (hs : Avoids letters s) (ht : Avoids letters t) :
    Avoids letters (s ++ t) :=
  List.forall_mem_append.2 ⟨hs, ht⟩

theorem Avoids.mono {letters letters' text : List Char} (h : Avoids letters text)
    (hl : letters'.all letters.contains = true) : Avoids letters' text :=
  fun c hc hd => h c hc (by simpa using List.all_eq_true.1 hl _ hd)

theorem ascii_of_asciiLower {c : Char} (h : (asciiLower c).toNat < 0x80) : c.toNat < 0x80 := by
  unfold asciiLower at h
  split at h
  · next hc =>
    simp only [Bool.and_eq_true, decide_eq_true_eq, Char.le_def, UInt32.le_iff_toNat_le] at hc
    have : c.toNat ≤ 'Z'.toNat := hc.2
    exact Nat.lt_of_le_of_lt this (by decide)
  · exact h

theorem foldCase_eq_asciiLower {c : Char} (h : (asciiLower c).toNat < 0x80) :
    foldCase c = asciiLower c := by
  rw [foldCase, if_pos (ascii_of_asciiLower h)]

theorem foldCase_asciiLower (c : Char) : foldCase (asciiLower c) = foldCase c := by
  by_cases hc : c.toNat < 0x80
  · exact (foldCase_ascii hc).2.2.2
  · rw [asciiLower, if_neg]
    simp only [Bool.and_eq_true, decide_eq_true_eq, Char.le_def, UInt32.le_iff_toNat_le]
    rintro ⟨-, hle⟩
    have hz : c.toNat ≤ 'Z'.toNat := hle
    exact hc (Nat.lt_of_le_of_lt hz (by decide))

theorem Avoids.map_asciiLower {letters text : List Char} (h : Avoids letters text) :
    Avoids letters (text.map asciiLower) := by
  intro c hc
  obtain ⟨d, hd, rfl⟩ := List.mem_map.1 hc
  rw [foldCase_asciiLower]
  exact h d hd

theorem Avoids.notMem_map_asciiLower {letters text : List Char} (h : Avoids letters text) {d : Char}
    (hd : d ∈ letters) (hascii : d.toNat < 0x80) : d ∉ text.map asciiLower := by
  intro hm
  obtain ⟨c, hc, rfl⟩ := List.mem_map.1 hm
  exact h c hc (foldCase_eq_asciiLower hascii ▸ hd)

/-- A class of characters that has none of the given ASCII letters, in either case. -/
def sparing (letters : List Char) (test : Char → Bool) : Bool :=
  (letters.all fun d => d.toNat < 0x80 && d != '\x00') && !test 'ſ' && !test '\u212a'
    && (List.range 0x80).all fun n =>
      !test (Char.ofNat n) || !letters.contains (foldCase (Char.ofNat n))

theorem avoids_of_all {letters : List Char} {test : Char → Bool} (hl : sparing letters test = true)
    {text : List Char} (ht : text.all test = true) : Avoids letters text := by
  simp only [sparing, Bool.and_eq_true, List.all_eq_true, decide_eq_true_eq, bne_iff_ne,
    Bool.not_eq_true', List.mem_range, Bool.or_eq_true, List.contains_eq_mem,
    decide_eq_false_iff_not] at hl
  obtain ⟨⟨⟨hascii, hlong⟩, hkelvin⟩, hall⟩ := hl
  intro c hc hd
  have hcT := List.all_eq_true.1 ht c hc
  rcases ascii_of_foldCase rfl (hascii _ hd).1 (hascii _ hd).2 with h | rfl | rfl
  · have := hall c.toNat h
    rw [Char.ofNat_toNat, hcT] at this
    simp [hd] at this
  · rw [hlong] at hcT
    exact absurd hcT (by decide)
  · rw [hkelvin] at hcT
    exact absurd hcT (by decide)

/-- The text spells a word in either case. -/
def Spells (word : String) (text : List Char) : Prop :=
  text.map foldCase = word.toList.map foldCase

variable {word : String} {text : List Char}

theorem Spells.avoids {letters : List Char} (h : Spells word text)
    (hw : Avoids letters word.toList) : Avoids letters text := by
  intro c hc hd
  have hm : foldCase c ∈ word.toList.map foldCase := h ▸ List.mem_map_of_mem hc
  obtain ⟨w, hw', he⟩ := List.mem_map.1 hm
  exact hw w hw' (he ▸ hd)

theorem Spells.isWord_of_mem (h : Spells word text)
    (hw : word.toList.all (fun w => w.toNat < 0x80 && isWord w) = true) {c : Char} (hc : c ∈ text) :
    isWord c = true := by
  have hm : foldCase c ∈ word.toList.map foldCase := h ▸ List.mem_map_of_mem hc
  obtain ⟨w, hw', he⟩ := List.mem_map.1 hm
  have hword := List.all_eq_true.1 hw w hw'
  simp only [Bool.and_eq_true, decide_eq_true_eq] at hword
  exact isWord_of_foldCase_eq he.symm hword.1 hword.2

theorem Spells.ne_nil (h : Spells word text) (hw : word.toList ≠ []) : text ≠ [] := by
  rintro rfl
  exact hw (List.map_eq_nil_iff.1 h.symm)

theorem Spells.notMem (h : Spells word text) {c : Char} (hc : foldCase c ∉ word.toList.map foldCase) :
    c ∉ text :=
  fun hm => hc (h ▸ List.mem_map_of_mem hm)

theorem Spells.map_asciiLower (h : Spells word text)
    (hw : (word.toList.map foldCase).all (fun d => d.toNat < 0x80 && d != '\x00') = true)
    (hlong : 'ſ' ∉ text)
    (hkelvin : '\u212a' ∉ text) : text.map asciiLower = word.toList.map foldCase := by
  rw [← h]
  refine List.map_congr_left fun c hc => ?_
  have hfold := List.all_eq_true.1 hw (foldCase c) (h ▸ List.mem_map_of_mem hc)
  simp only [Bool.and_eq_true, decide_eq_true_eq, bne_iff_ne] at hfold
  rcases ascii_of_foldCase rfl hfold.1 hfold.2 with hascii | rfl | rfl
  · rw [foldCase, if_pos hascii]
  · exact absurd hc hlong
  · exact absurd hc hkelvin

end ReportMigration.Text
