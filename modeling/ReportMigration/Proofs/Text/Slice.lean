import Mathlib
import ReportMigration.Text.Utf8

/-!
# Cutting at byte positions

A text may be cut at a byte position where one of its characters begins or where it ends, and
nowhere else. A slice between two positions exists exactly if the text may be cut at both and the
first is not behind the second.
-/

namespace ReportMigration.Text

def bytes (text : List Char) : List UInt8 :=
  text.flatMap String.utf8EncodeChar

/-- A text before and behind a byte position, if it may be cut there. -/
def cutAt : ℕ → List Char → Option (List Char × List Char)
  | 0, text => some ([], text)
  | _ + 1, [] => none
  | n + 1, c :: text =>
    if c.utf8Size ≤ n + 1 then
      (cutAt (n + 1 - c.utf8Size) text).map fun (front, back) => (c :: front, back)
    else none

/-- The text between two byte positions, if there is such a slice. -/
def slice (text : List Char) (start stop : ℕ) : Option (List Char) :=
  (cutAt stop text).bind fun (front, _) => (cutAt start front).map Prod.snd

/-- The text before a byte position, if it may be cut there. -/
def truncate (text : List Char) (length : ℕ) : Option (List Char) :=
  (cutAt length text).map Prod.fst

/-- A character begins at the byte position, or the text ends there. -/
def Boundary (text : List Char) (position : ℕ) : Prop :=
  ∃ front back, text = front ++ back ∧ byteLength front = position

variable {text front back : List Char} {start stop : ℕ}

@[simp] theorem byteLength_nil : byteLength [] = 0 := rfl

theorem byteLength_cons (c : Char) (text : List Char) :
    byteLength (c :: text) = c.utf8Size + byteLength text := rfl

theorem byteLength_pos (h : text ≠ []) : 0 < byteLength text := by
  cases text with
  | nil => exact absurd rfl h
  | cons c text =>
    have hc := c.utf8Size_pos
    rw [byteLength_cons]
    omega

theorem length_bytes (text : List Char) : (bytes text).length = byteLength text := by
  induction text with
  | nil => rfl
  | cons c text ih =>
    rw [bytes, List.flatMap_cons, List.length_append, String.length_utf8EncodeChar, byteLength_cons]
    exact congrArg _ ih

theorem bytes_append (s t : List Char) : bytes (s ++ t) = bytes s ++ bytes t :=
  List.flatMap_append

theorem bytes_cons (c : Char) (text : List Char) :
    bytes (c :: text) = String.utf8EncodeChar c ++ bytes text :=
  List.flatMap_cons

theorem utf8EncodeChar_ascii {c : Char} (hc : c.toNat < 0x80) :
    String.utf8EncodeChar c = [c.toUInt8] := by
  have hle : c.val.toNat ≤ 127 := Nat.le_of_lt_succ hc
  simp only [String.utf8EncodeChar, if_pos hle]
  rfl

theorem bytes_cons_ascii {c : Char} (hc : c.toNat < 0x80) (text : List Char) :
    bytes (c :: text) = c.toUInt8 :: bytes text := by
  rw [bytes_cons, utf8EncodeChar_ascii hc, List.singleton_append]

private theorem le_toNat_of_mem_utf8EncodeChar {c : Char} (hc : 0x80 ≤ c.toNat) {b : UInt8}
    (hb : b ∈ String.utf8EncodeChar c) : 0x80 ≤ b.toNat := by
  have hgt : ¬ c.val.toNat ≤ 127 := Nat.not_le_of_lt hc
  simp only [String.utf8EncodeChar, if_neg hgt] at hb
  split at hb
  · simp only [List.mem_cons, List.not_mem_nil, or_false] at hb
    rcases hb with rfl | rfl <;> simp only [UInt8.toNat_ofNat'] <;> omega
  · split at hb
    · simp only [List.mem_cons, List.not_mem_nil, or_false] at hb
      rcases hb with rfl | rfl | rfl <;> simp only [UInt8.toNat_ofNat'] <;> omega
    · simp only [List.mem_cons, List.not_mem_nil, or_false] at hb
      rcases hb with rfl | rfl | rfl | rfl <;> simp only [UInt8.toNat_ofNat'] <;> omega

theorem mem_utf8EncodeChar_iff {c d : Char} (hd : d.toNat < 0x80) :
    d.toUInt8 ∈ String.utf8EncodeChar c ↔ c = d := by
  have hbyte : ∀ {c : Char}, c.toNat < 0x80 → c.toUInt8.toNat = c.toNat := by
    intro c hc
    have hmod : c.toUInt8.toNat = c.toNat % 256 := UInt32.toNat_toUInt8 ..
    omega
  by_cases hc : c.toNat < 0x80
  · rw [utf8EncodeChar_ascii hc, List.mem_singleton]
    constructor
    · intro he
      refine Char.toNat_inj.1 ?_
      rw [← hbyte hc, ← hbyte hd, he]
    · rintro rfl
      rfl
  · refine iff_of_false (fun hm => ?_) (fun he => hc (he ▸ hd))
    have hle := le_toNat_of_mem_utf8EncodeChar (Nat.le_of_not_lt hc) hm
    rw [hbyte hd] at hle
    omega

theorem ne_of_mem_utf8EncodeChar {c d : Char} (hd : d.toNat < 0x80) (h : c ≠ d) {b : UInt8}
    (hb : b ∈ String.utf8EncodeChar c) : b ≠ d.toUInt8 := by
  rintro rfl
  exact h ((mem_utf8EncodeChar_iff hd).1 hb)

theorem cutAt_append (front back : List Char) :
    cutAt (byteLength front) (front ++ back) = some (front, back) := by
  induction front with
  | nil => rw [byteLength_nil, List.nil_append, cutAt]
  | cons c front ih =>
    obtain ⟨n, hn⟩ := Nat.exists_eq_succ_of_ne_zero (byteLength_pos (List.cons_ne_nil c front)).ne'
    have hsize : c.utf8Size ≤ n + 1 := by
      rw [byteLength_cons] at hn
      omega
    have hrest : n + 1 - c.utf8Size = byteLength front := by
      rw [byteLength_cons] at hn
      omega
    rw [hn, List.cons_append, Nat.succ_eq_add_one, cutAt, if_pos hsize, hrest, ih]
    rfl

theorem cutAt_eq_some {position : ℕ} :
    cutAt position text = some (front, back) ↔ text = front ++ back ∧ byteLength front = position := by
  constructor
  · intro h
    fun_induction cutAt position text generalizing front back with
    | case1 text =>
      cases h
      exact ⟨rfl, rfl⟩
    | case2 n => cases h
    | case3 n c text hsize ih =>
      obtain ⟨⟨front', back'⟩, hcut, he⟩ := Option.map_eq_some_iff.1 h
      cases he
      obtain ⟨rfl, hlength⟩ := ih hcut
      rw [byteLength_cons, hlength]
      exact ⟨rfl, by omega⟩
    | case4 n c text hsize => cases h
  · rintro ⟨rfl, rfl⟩
    exact cutAt_append front back

theorem boundary_iff {position : ℕ} : Boundary text position ↔ (cutAt position text).isSome = true := by
  rw [Option.isSome_iff_exists]
  constructor
  · rintro ⟨front, back, rfl, rfl⟩
    exact ⟨_, cutAt_append front back⟩
  · rintro ⟨⟨front, back⟩, h⟩
    exact ⟨front, back, cutAt_eq_some.1 h⟩

theorem boundary_zero (text : List Char) : Boundary text 0 :=
  ⟨[], text, rfl, rfl⟩

theorem boundary_byteLength (text : List Char) : Boundary text (byteLength text) :=
  ⟨text, [], by simp, rfl⟩

theorem boundary_append (front back : List Char) : Boundary (front ++ back) (byteLength front) :=
  ⟨front, back, rfl, rfl⟩

/-- A text may still be cut where it could be cut before more text followed. -/
theorem Boundary.append {position : ℕ} (h : Boundary text position) (rest : List Char) :
    Boundary (text ++ rest) position := by
  obtain ⟨front, back, rfl, hlength⟩ := h
  exact ⟨front, back ++ rest, List.append_assoc .., hlength⟩

theorem Boundary.le {position : ℕ} (h : Boundary text position) : position ≤ byteLength text := by
  obtain ⟨front, back, rfl, rfl⟩ := h
  rw [byteLength_append]
  omega

theorem exists_append_of_le {front' back' : List Char} (h : front ++ back = front' ++ back')
    (hle : byteLength front ≤ byteLength front') : ∃ t, front' = front ++ t ∧ back = t ++ back' := by
  rcases List.append_eq_append_iff.1 h with ⟨t, rfl, rfl⟩ | ⟨t, rfl, rfl⟩
  · exact ⟨t, rfl, rfl⟩
  · have ht : t = [] := by
      by_contra hne
      have hpos := byteLength_pos hne
      rw [byteLength_append] at hle
      omega
    exact ⟨[], by simp [ht], by simp [ht]⟩

theorem slice_append (front middle back : List Char) :
    slice (front ++ (middle ++ back)) (byteLength front) (byteLength (front ++ middle)) =
      some middle := by
  rw [slice, ← List.append_assoc, cutAt_append, Option.bind_some]
  dsimp only
  rw [cutAt_append]
  rfl

theorem slice_rest (front back : List Char) :
    slice (front ++ back) (byteLength front) (byteLength (front ++ back)) = some back := by
  simpa using slice_append front back []

theorem slice_isSome_iff : (slice text start stop).isSome = true ↔
    start ≤ stop ∧ Boundary text start ∧ Boundary text stop := by
  constructor
  · intro h
    obtain ⟨middle, h⟩ := Option.isSome_iff_exists.1 h
    obtain ⟨⟨front, back⟩, hcut, h⟩ := Option.bind_eq_some_iff.1 h
    obtain ⟨⟨front', middle'⟩, hcut', -⟩ := Option.map_eq_some_iff.1 h
    obtain ⟨rfl, rfl⟩ := cutAt_eq_some.1 hcut
    obtain ⟨rfl, rfl⟩ := cutAt_eq_some.1 hcut'
    exact ⟨(boundary_append front' middle').le, (boundary_append front' middle').append back,
      boundary_append _ back⟩
  · rintro ⟨hle, ⟨front, back, rfl, rfl⟩, ⟨front', back', he, rfl⟩⟩
    obtain ⟨middle, rfl, rfl⟩ := exists_append_of_le he hle
    rw [slice_append]
    rfl

theorem truncate_append (front back : List Char) :
    truncate (front ++ back) (byteLength front) = some front := by
  rw [truncate, cutAt_append]
  rfl

end ReportMigration.Text
