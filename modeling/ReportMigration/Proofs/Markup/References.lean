import Mathlib
import ReportMigration.Proofs.Markup.FieldText

/-!
# Spellings of a text

A character may be written as it is, by the name of its entity, or by its number in either base,
with as many zeros in front as one likes. However a text is spelt that way, it is decoded as itself.
-/

namespace ReportMigration.Markup

open Text

/-- The digits of a number, the first one counting most. -/
def Numeral (base : Nat) (digits : List Char) (n : Nat) : Prop :=
  digits ≠ [] ∧ ∃ values : List Nat, digits.map (digitValue base) = values.map some ∧
    Nat.ofDigits base values.reverse = n

/-- What may be written for a character. No number means the null character. -/
inductive Stands : List Char → Char → Prop
  | plain {c : Char} (h : c ≠ '&') : Stands [c] c
  | named {name : List Char} {c : Char} (h : namedEntity name = some c) :
    Stands ('&' :: (name ++ [';'])) c
  | decimal {digits : List Char} {c : Char} (h : Numeral 10 digits c.toNat) (hc : c ≠ '\x00') :
    Stands ('&' :: '#' :: (digits ++ [';'])) c
  | hexadecimal {digits : List Char} {c : Char} (h : Numeral 16 digits c.toNat) (hc : c ≠ '\x00') :
    Stands ('&' :: '#' :: 'x' :: (digits ++ [';'])) c

/-- What may be written for a text: something for each of its characters. -/
inductive Denotes : List Char → List Char → Prop
  | nil : Denotes [] []
  | cons {part written : List Char} {c : Char} {text : List Char} (first : Stands part c)
    (rest : Denotes written text) : Denotes (part ++ written) (c :: text)

variable {base n : Nat} {digits spec part written text : List Char} {c : Char}

theorem ne_of_digitValue {d : Char} {value : Nat} (h : digitValue base c = some value)
    (hd : digitValue base d = none) : c ≠ d := by
  rintro rfl
  rw [hd] at h
  cases h

theorem digitValue_of_mem {values : List Nat} (h : digits.map (digitValue base) = values.map some)
    (hc : c ∈ digits) : ∃ value, digitValue base c = some value := by
  have hmem : digitValue base c ∈ values.map some := h ▸ List.mem_map_of_mem hc
  obtain ⟨value, -, hvalue⟩ := List.mem_map.1 hmem
  exact ⟨value, hvalue.symm⟩

theorem readDigits_cons {value : Nat} (h : digitValue base c = some value) {n : Nat}
    (hsmall : n * base + value < 2 ^ 32) :
    readDigits base n (c :: digits) = readDigits base (n * base + value) digits := by
  -- one step of the reader, as far as it goes without the value of the digit
  conv_lhs => whnf
  rw [h]
  exact if_pos hsmall

theorem readDigits_eq {values : List Nat} (h : digits.map (digitValue base) = values.map some)
    (hbase : 0 < base) (n : Nat)
    (hn : n * base ^ values.length + Nat.ofDigits base values.reverse < 2 ^ 32) :
    readDigits base n digits =
      .ok (n * base ^ values.length + Nat.ofDigits base values.reverse) := by
  induction digits generalizing values n with
  | nil =>
    obtain rfl : values = [] := by simpa using h.symm
    have hend : readDigits base n [] = .ok n := rfl
    simp [hend]
  | cons c digits ih =>
    obtain ⟨value, values, rfl⟩ := List.exists_cons_of_ne_nil (l := values) (by
      rintro rfl
      simp at h)
    rw [List.map_cons, List.map_cons, List.cons.injEq] at h
    obtain ⟨hfirst, hrest⟩ := h
    have hsum : n * base ^ (value :: values).length + Nat.ofDigits base (value :: values).reverse =
        (n * base + value) * base ^ values.length + Nat.ofDigits base values.reverse := by
      rw [List.reverse_cons, Nat.ofDigits_append, Nat.ofDigits_singleton, List.length_reverse,
        List.length_cons, pow_succ]
      ring
    rw [hsum] at hn ⊢
    have hsmall : n * base + value < 2 ^ 32 := by
      have hpow : 1 ≤ base ^ values.length := Nat.one_le_pow _ _ hbase
      have hle : n * base + value ≤ (n * base + value) * base ^ values.length :=
        Nat.le_mul_of_pos_right _ hpow
      omega
    rw [readDigits_cons hfirst hsmall, ih hrest (n * base + value) hn]

theorem readNumber_eq (h : Numeral base digits n) (hbase : 0 < base)
    (hplus : digitValue base '+' = none) (hminus : digitValue base '-' = none) (hn : n < 2 ^ 32) :
    readNumber base digits = .ok n := by
  obtain ⟨hne, values, hvalues, rfl⟩ := h
  have hread := readDigits_eq hvalues hbase 0 (by rwa [Nat.zero_mul, Nat.zero_add])
  rw [Nat.zero_mul, Nat.zero_add] at hread
  obtain ⟨c, digits, rfl⟩ := List.exists_cons_of_ne_nil hne
  obtain ⟨value, hc⟩ := digitValue_of_mem hvalues List.mem_cons_self
  have hsign : ¬ (c = '+' ∨ c = '-') :=
    not_or.2 ⟨ne_of_digitValue hc hplus, ne_of_digitValue hc hminus⟩
  rw [readNumber, if_neg hsign]
  exact hread

theorem toNat_lt (c : Char) : c.toNat < 2 ^ 32 :=
  c.val.toNat_lt

theorem toNat_ne_zero (h : c ≠ '\x00') : c.toNat ≠ 0 := by
  intro hzero
  exact h (Char.toNat_inj.1 hzero)

theorem ofNat_toNat_eq_ok (hc : c ≠ '\x00') :
    (if c.toNat = 0 then .error .null
      else if (Char.ofNat c.toNat).toNat = c.toNat then .ok (Char.ofNat c.toNat)
      else .error (.noCharacter c.toNat) : Except ReferenceFault Char) = .ok c := by
  rw [if_neg (toNat_ne_zero hc), Char.ofNat_toNat, if_pos rfl]

theorem numericReference_decimal (h : Numeral 10 digits c.toNat) (hc : c ≠ '\x00') :
    numericReference digits = .ok c := by
  have hread := readNumber_eq h (by decide) (by decide) (by decide) (toNat_lt c)
  have hhex : ∀ hex, digits ≠ 'x' :: hex := by
    rintro hex rfl
    obtain ⟨-, values, hvalues, -⟩ := h
    obtain ⟨value, hx⟩ := digitValue_of_mem hvalues List.mem_cons_self
    exact ne_of_digitValue hx (by decide) rfl
  unfold numericReference
  split
  · exact absurd rfl (hhex _)
  · rw [hread]
    exact ofNat_toNat_eq_ok hc

theorem numericReference_hexadecimal (h : Numeral 16 digits c.toNat) (hc : c ≠ '\x00') :
    numericReference ('x' :: digits) = .ok c := by
  have hread := readNumber_eq h (by decide) (by decide) (by decide) (toNat_lt c)
  unfold numericReference
  split
  · next hex hsame =>
    cases hsame
    rw [hread]
    exact ofNat_toNat_eq_ok hc
  · next hdecimal => exact absurd rfl (hdecimal digits)

theorem decodeFrom_inside (length position start : Nat) (front : List Char)
    (h : ∀ c ∈ spec, c ≠ '&' ∧ c ≠ ';') (text : List Char) :
    ∃ next, decodeFrom length position (some (start, front)) (spec ++ ';' :: text) =
      (referenced start (front.reverse ++ spec) >>= fun meant =>
        (meant :: ·) <$> decodeFrom length next none text) := by
  induction spec generalizing position front with
  | nil =>
    refine ⟨position + 1, ?_⟩
    rw [List.nil_append, List.append_nil, decodeFrom, if_neg (by decide), if_pos rfl]
  | cons c spec ih =>
    obtain ⟨⟨hamp, hsemi⟩, hrest⟩ := List.forall_mem_cons.1 h
    obtain ⟨next, hnext⟩ := ih (position + c.utf8Size) (c :: front) hrest
    refine ⟨next, ?_⟩
    rw [List.cons_append, decodeFrom, if_neg hamp, if_neg hsemi, hnext, List.reverse_cons,
      List.append_assoc, List.singleton_append]

theorem decodeFrom_reference (h : ∀ c ∈ spec, c ≠ '&' ∧ c ≠ ';')
    (hmeant : ∀ start, referenced start spec = .ok c) (length position : Nat) (text : List Char) :
    ∃ next, decodeFrom length position none ('&' :: (spec ++ [';']) ++ text) =
      (c :: ·) <$> decodeFrom length next none text := by
  obtain ⟨next, hnext⟩ := decodeFrom_inside length (position + 1) position [] h text
  refine ⟨next, ?_⟩
  rw [List.cons_append, List.append_assoc, List.singleton_append, decodeFrom, if_pos rfl, hnext,
    List.reverse_nil, List.nil_append, hmeant]
  rfl

theorem of_namedEntity {name : List Char} (h : namedEntity name = some c) :
    (∀ d ∈ name, d ≠ '&' ∧ d ≠ ';') ∧ ∀ start, referenced start name = .ok c := by
  unfold namedEntity at h
  split at h <;> cases h <;> exact ⟨by simp, fun start => rfl⟩

theorem of_numeral (h : Numeral base digits n) (hamp : digitValue base '&' = none)
    (hsemi : digitValue base ';' = none) : ∀ d ∈ digits, d ≠ '&' ∧ d ≠ ';' := by
  obtain ⟨-, values, hvalues, -⟩ := h
  intro d hd
  obtain ⟨value, hvalue⟩ := digitValue_of_mem hvalues hd
  exact ⟨ne_of_digitValue hvalue hamp, ne_of_digitValue hvalue hsemi⟩

theorem Stands.decodeFrom_eq (h : Stands part c) (length position : Nat) (text : List Char) :
    ∃ next, decodeFrom length position none (part ++ text) =
      (c :: ·) <$> decodeFrom length next none text := by
  cases h with
  | plain h => exact ⟨position + c.utf8Size, by rw [List.singleton_append, decodeFrom, if_neg h]⟩
  | named h =>
    obtain ⟨hspec, hmeant⟩ := of_namedEntity h
    exact decodeFrom_reference hspec hmeant length position text
  | @decimal digits _ h hc =>
    have hspec : ∀ d ∈ '#' :: digits, d ≠ '&' ∧ d ≠ ';' :=
      List.forall_mem_cons.2 ⟨by decide, of_numeral h (by decide) (by decide)⟩
    refine decodeFrom_reference hspec (fun start => ?_) length position text
    rw [referenced, numericReference_decimal h hc]
    rfl
  | @hexadecimal digits _ h hc =>
    have hspec : ∀ d ∈ '#' :: 'x' :: digits, d ≠ '&' ∧ d ≠ ';' :=
      List.forall_mem_cons.2 ⟨by decide, List.forall_mem_cons.2
        ⟨by decide, of_numeral h (by decide) (by decide)⟩⟩
    refine decodeFrom_reference hspec (fun start => ?_) length position text
    rw [referenced, numericReference_hexadecimal h hc]
    rfl

theorem Denotes.decodeFrom_eq (h : Denotes written text) (length position : Nat) :
    decodeFrom length position none written = .ok text := by
  induction h generalizing position with
  | nil => rfl
  | cons first _ ih =>
    obtain ⟨next, hnext⟩ := first.decodeFrom_eq length position _
    rw [hnext, ih next]
    rfl

theorem Denotes.decode_eq (h : Denotes written text) : decode written = .ok text :=
  h.decodeFrom_eq _ 0

theorem denotes_plain (h : '&' ∉ text) : Denotes text text := by
  induction text with
  | nil => exact .nil
  | cons c text ih =>
    rw [List.mem_cons, not_or] at h
    exact .cons (.plain (Ne.symm h.1)) (ih h.2)

theorem exists_denotes (text : List Char) : ∃ written, Denotes written text ∧ '"' ∉ written := by
  induction text with
  | nil => exact ⟨[], .nil, List.not_mem_nil⟩
  | cons c text ih =>
    obtain ⟨written, hwritten, hfree⟩ := ih
    obtain ⟨part, hpart, hplain⟩ : ∃ part, Stands part c ∧ '"' ∉ part := by
      by_cases hamp : c = '&'
      · subst hamp
        exact ⟨_, @Stands.named "amp".toList '&' rfl, by decide⟩
      by_cases hquote : c = '"'
      · subst hquote
        exact ⟨_, @Stands.named "quot".toList '"' rfl, by decide⟩
      · exact ⟨[c], .plain hamp, by simpa using Ne.symm hquote⟩
    refine ⟨part ++ written, .cons hpart hwritten, ?_⟩
    rw [List.mem_append, not_or]
    exact ⟨hplain, hfree⟩

end ReportMigration.Markup
