import ReportMigration.Proofs.Text.Slice
import ReportMigration.Text.OsText

/-!
# Texts among the names of a file system

The bytes of a text give the text back. One text ends with another exactly if its bytes end with
those of the other, as no byte within a character begins one.
-/

namespace ReportMigration

namespace Text

theorem bytes_inj {text other : List Char} : bytes text = bytes other ↔ text = other := by
  refine ⟨fun h => ?_, fun h => h ▸ rfl⟩
  apply String.ofList_injective
  rw [← String.toByteArray_inj, String.toByteArray_ofList, String.toByteArray_ofList]
  exact congrArg List.toByteArray h

theorem isUTF8FirstByte_of_bytes {text : List Char} {byte : UInt8} {more : List UInt8}
    (h : bytes text = byte :: more) : byte.IsUTF8FirstByte := by
  cases text with
  | nil => cases h
  | cons c rest =>
    have first : 0 < (String.utf8EncodeChar c).length := by
      rw [String.length_utf8EncodeChar]
      exact c.utf8Size_pos
    have here : (String.utf8EncodeChar c)[0] = byte := by
      rw [bytes_cons] at h
      have head : (String.utf8EncodeChar c ++ bytes rest)[0]? = some byte := by rw [h]; rfl
      rw [List.getElem?_append_left first, List.getElem?_eq_getElem first] at head
      exact Option.some.inj head
    rw [← here]
    exact UInt8.isUTF8FirstByte_getElem_utf8EncodeChar.2 rfl

theorem not_isUTF8FirstByte_of_utf8EncodeChar {c : Char} {front more : List UInt8} {byte : UInt8}
    (h : String.utf8EncodeChar c = front ++ byte :: more) (behind : front ≠ []) :
    ¬ byte.IsUTF8FirstByte := by
  have inside : front.length < (String.utf8EncodeChar c).length := by simp [h]
  have here : (String.utf8EncodeChar c)[front.length] = byte := by simp [h]
  rw [← here, UInt8.isUTF8FirstByte_getElem_utf8EncodeChar]
  exact fun nothing => behind (List.length_eq_zero_iff.1 nothing)

theorem suffix_of_bytes_suffix {text suffix : List Char} (h : bytes suffix <:+ bytes text) :
    suffix <:+ text := by
  induction text with
  | nil =>
    have nothing : bytes suffix = bytes [] := List.suffix_nil.1 h
    exact bytes_inj.1 nothing ▸ List.suffix_rfl
  | cons c rest ih =>
    obtain ⟨front, h⟩ := h
    rw [bytes_cons] at h
    rcases List.append_eq_append_iff.1 h with ⟨between, hchar, hsuffix⟩ | ⟨between, -, hrest⟩
    · -- the suffix begins in front of the next character, or behind this one, or it is empty
      by_cases all : front = []
      · rw [all, List.nil_append] at hchar
        have whole : bytes suffix = bytes (c :: rest) := by rw [hsuffix, ← hchar, bytes_cons]
        exact bytes_inj.1 whole ▸ List.suffix_rfl
      · cases between with
        | nil => exact bytes_inj.1 hsuffix ▸ List.suffix_cons c _
        | cons byte more =>
          exact absurd (isUTF8FirstByte_of_bytes hsuffix)
            (not_isUTF8FirstByte_of_utf8EncodeChar hchar all)
    · exact (ih ⟨between, hrest.symm⟩).trans (List.suffix_cons c rest)

theorem bytes_suffix_iff {text suffix : List Char} :
    bytes suffix <:+ bytes text ↔ suffix <:+ text := by
  refine ⟨suffix_of_bytes_suffix, ?_⟩
  rintro ⟨front, rfl⟩
  exact ⟨bytes front, (bytes_append front suffix).symm⟩

end Text

namespace OsText

theorem bytes_ofText (text : String) : (ofText text).bytes = Text.bytes text.toList := by
  have encoded : text.toUTF8 = (Text.bytes text.toList).toByteArray := by
    rw [String.toUTF8_eq_toByteArray, Text.bytes, ← List.utf8Encode, String.utf8Encode_toList]
  rw [ofText, encoded]
  exact List.toList_data_toByteArray

@[simp] theorem bytes_append (name more : OsText) : (name ++ more).bytes = name.bytes ++ more.bytes :=
  rfl

@[simp] theorem append_empty (name : OsText) : name ++ ⟨[]⟩ = name :=
  congrArg OsText.mk (List.append_nil name.bytes)

theorem bytes_inj {name other : OsText} : name.bytes = other.bytes ↔ name = other :=
  ⟨congrArg OsText.mk, congrArg bytes⟩

theorem ofText_append (text more : String) : ofText (text ++ more) = ofText text ++ ofText more := by
  rw [← bytes_inj, bytes_append, bytes_ofText, bytes_ofText, bytes_ofText, String.toList_append,
    Text.bytes_append]

theorem ofText_inj {text other : String} : ofText text = ofText other ↔ text = other := by
  rw [← bytes_inj, bytes_ofText, bytes_ofText, Text.bytes_inj, String.toList_inj]

theorem toText?_eq_some_iff {name : OsText} {text : String} :
    name.toText? = some text ↔ name = ofText text := by
  constructor
  · intro h
    unfold toText? String.fromUTF8? at h
    split at h
    · obtain rfl := Option.some.inj h
      rfl
    · cases h
  · rintro rfl
    simp only [toText?, ofText, String.fromUTF8?, String.toUTF8_eq_toByteArray,
      Array.toArray_toList, dif_pos text.isValidUTF8]
    rfl

@[simp] theorem toText?_ofText (text : String) : (ofText text).toText? = some text :=
  toText?_eq_some_iff.2 rfl

theorem mem_bytes_ofText_iff {text : String} {c : Char} (hc : c.toNat < 0x80) :
    c.toUInt8 ∈ (ofText text).bytes ↔ c ∈ text.toList := by
  simp only [bytes_ofText, Text.bytes, List.mem_flatMap, Text.mem_utf8EncodeChar_iff hc,
    exists_eq_right]

theorem head?_bytes_ofText {text : String} {c : Char} (hc : c.toNat < 0x80)
    (h : text.toList.head? = some c) : (ofText text).bytes.head? = some c.toUInt8 := by
  obtain ⟨rest, spelt⟩ := List.head?_eq_some_iff.1 h
  rw [bytes_ofText, spelt, Text.bytes_cons_ascii hc, List.head?_cons]

theorem suffix_ofText_iff {text suffix : String} :
    (ofText suffix).bytes <:+ (ofText text).bytes ↔ suffix.toList <:+ text.toList := by
  rw [bytes_ofText, bytes_ofText, Text.bytes_suffix_iff]

instance : LE OsText := ⟨fun name other => name.bytes ≤ other.bytes⟩

instance : LinearOrder OsText where
  le_refl name := Std.le_refl name.bytes
  le_trans name other last := Std.le_trans (a := name.bytes)
  lt_iff_le_not_ge name other := Std.lt_iff_le_and_not_ge (a := name.bytes) (b := other.bytes)
  le_antisymm name other h h' := congrArg OsText.mk (Std.le_antisymm h h')
  le_total name other := Std.le_total (a := name.bytes) (b := other.bytes)
  toDecidableLE name other := inferInstanceAs (Decidable (name.bytes ≤ other.bytes))

end OsText

end ReportMigration
