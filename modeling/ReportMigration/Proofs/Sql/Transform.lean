import ReportMigration.Proofs.Sql.Regular

/-!
# The transforms of the standard calls

Every replacement of a standard call is its arguments between fixed texts. So it is an item, and
where it is replaced with a piece in one of its arguments, that piece is in the replacement as it
was, between texts that do not depend on it.
-/

namespace ReportMigration.Sql

open Text

/-- What a text ends with, as far as a word boundary behind it is concerned. -/
inductive Ending where
  | word
  | closing
  | free
deriving DecidableEq, Repr

def Ending.ofLast : Option Char → Ending
  | none => free
  | some c => if isWord c then word else if c = ')' then closing else free

def ending (text : List Char) : Ending :=
  .ofLast text.getLast?

theorem ending_append (s : List Char) {t : List Char} (ht : t ≠ []) :
    ending (s ++ t) = ending t := by
  rw [ending, ending, List.getLast?_append, List.getLast?_eq_some_getLast ht, Option.some_or]

theorem ending_word_iff {text : List Char} :
    ending text = .word ↔ text.getLast?.any isWord = true := by
  rw [ending]
  cases text.getLast? with
  | none => simp [Ending.ofLast]
  | some c => by_cases hc : isWord c <;> by_cases hp : c = ')' <;> simp [Ending.ofLast, hc, hp]

theorem ending_ne_word_iff {text : List Char} :
    ending text ≠ .word ↔ text.getLast?.any isWord = false := by
  rw [Ne, ending_word_iff, Bool.not_eq_true]

theorem ending_of_isBlank {text : List Char} (h : text.all isBlank = true) :
    ending text = .free := by
  rw [ending]
  cases hl : text.getLast? with
  | none => rfl
  | some c =>
    have hc := List.all_eq_true.1 h c (List.mem_of_getLast? hl)
    have hp : c ≠ ')' := by
      rintro rfl
      exact absurd hc (by decide)
    simp [Ending.ofLast, isWord_of_isBlank hc, hp]

/-- Behind a free ending, trimming the front of a text does not change how it ends. -/
theorem ending_append_trimStart {front : List Char} (hf : ending front = .free) (text : List Char) :
    ending (front ++ trimStart text) = ending text := by
  have ht : text.takeWhile isBlank ++ trimStart text = text := List.takeWhile_append_dropWhile
  by_cases he : trimStart text = []
  · have hb : text.all isBlank = true := by
      rw [he, List.append_nil] at ht
      exact ht ▸ List.all_takeWhile
    rw [he, List.append_nil, hf, ending_of_isBlank hb]
  · conv => rhs; rw [← ht]
    rw [ending_append _ he, ending_append _ he]

/-- A piece of text that stays whole wherever it stands: an item, with a closing parenthesis at its
end and no quote at its start. -/
structure Plug (text : List Char) : Prop where
  item : Item text
  tight : Tight text
  head : text.head? ≠ some '\''
  last : text.getLast? = some ')'

/-- Whatever plug stands in an argument, the transform declines, or it puts the same text around the
plug. The text in front ends the same way in the argument and in the replacement. -/
def Carries (e : Ending) (plug : List Char → Prop)
    (transform : List (List Char) → Option (List Char)) : Prop :=
  ∀ (args behind : List (List Char)) (front back : List Char), (∀ a ∈ args, Unquoted a) →
    Unquoted front → ending front = e →
      (∀ h, plug h → transform (args ++ trim (front ++ (h ++ back)) :: behind) = none) ∨
        ∃ front' back', front' ≠ [] ∧ Unquoted front' ∧ ending front' = e ∧
          ∀ h, plug h → transform (args ++ trim (front ++ (h ++ back)) :: behind) =
            some (front' ++ (h ++ back'))

theorem Carries.mono {e : Ending} {plug plug' : List Char → Prop}
    {transform : List (List Char) → Option (List Char)} (h : Carries e plug transform)
    (hp : ∀ t, plug' t → plug t) : Carries e plug' transform := by
  intro args behind front back ha hf he
  rcases h args behind front back ha hf he with hnone | ⟨front', back', hne, hu, hend, hsome⟩
  · exact .inl fun t ht => hnone t (hp t ht)
  · exact .inr ⟨front', back', hne, hu, hend, fun t ht => hsome t (hp t ht)⟩

theorem unquoted_trimStart {text : List Char} : Unquoted (trimStart text) ↔ Unquoted text := by
  have ht : text.takeWhile isBlank ++ trimStart text = text := List.takeWhile_append_dropWhile
  have hc : (text.takeWhile isBlank).count '\'' = 0 := by
    refine List.count_eq_zero.2 fun hm => ?_
    exact absurd (List.all_eq_true.1 (List.all_takeWhile (p := isBlank) (l := text)) _ hm) (by decide)
  unfold Unquoted
  conv => rhs; rw [← ht]
  rw [List.count_append, hc, Nat.zero_add]

theorem single_eq_some {args : List (List Char)} {expr : List Char} :
    single args = some expr ↔ args = [expr] ∧ expr ≠ [] := by
  unfold single
  split
  · next e =>
    cases e with
    | nil => simp
    | cons c e =>
      simp only [List.isEmpty_cons, Bool.false_eq_true, if_false, Option.some.injEq,
        List.cons.injEq, and_true]
      exact ⟨fun h => ⟨h, h ▸ List.cons_ne_nil c e⟩, And.left⟩
  · next hne => exact ⟨nofun, fun h => absurd h.1 (hne expr)⟩

theorem around_eq_some {first last : String} {args : List (List Char)} {text : List Char} :
    around first last args = some text ↔
      ∃ expr, args = [expr] ∧ expr ≠ [] ∧ text = first.toList ++ expr ++ last.toList := by
  simp only [around, Option.map_eq_some_iff, single_eq_some, and_assoc]
  simp only [eq_comm]

/-- A text that opens one parenthesis, and a text that closes it. -/
structure Brackets (first last : List Char) : Prop where
  opens : (Place.mk false 0).walk true first = some ⟨false, 1⟩
  closes : (Place.mk false 1).walk true last = some ⟨false, 0⟩
  tight : first.head?.any (fun c => !isBlank c) = true ∧
    last.getLast?.any (fun c => !isBlank c) = true
  unquoted : Unquoted first ∧ Unquoted last
  free : first ≠ [] ∧ ending first = .free

theorem Brackets.item {first last expr : List Char} (h : Brackets first last) (he : Item expr) :
    Item (first ++ expr ++ last) := by
  rw [Item, Place.walk_append, Place.walk_append, h.opens, Option.bind_some, he.walk,
    Option.bind_some, h.closes]

theorem Brackets.tight_append {first last : List Char} (h : Brackets first last) (expr : List Char) :
    Tight (first ++ expr ++ last) := by
  rw [List.append_assoc]
  refine Text.tight_append h.tight.1 ?_
  have hl := h.tight.2
  cases hlast : last.getLast? with
  | none => exact absurd hl (by simp [hlast])
  | some c =>
    rw [hlast] at hl
    rwa [List.getLast?_append, hlast]

theorem Brackets.plug {first last expr : List Char} (h : Brackets first last) (he : Item expr)
    (hhead : first.head? ≠ some '\'') (hlast : last.getLast? = some ')') :
    Plug (first ++ expr ++ last) := by
  refine ⟨h.item he, h.tight_append expr, ?_, ?_⟩
  · rwa [List.append_assoc, List.head?_append_of_ne_nil _ h.free.1]
  · rw [List.getLast?_append, hlast, Option.some_or]

theorem tidy_around {first last : String} (h : Brackets first.toList last.toList) :
    Tidy (around first last) where
  item {args text} hargs ht := by
    obtain ⟨expr, rfl, -, rfl⟩ := around_eq_some.1 ht
    exact h.item (hargs expr List.mem_cons_self)
  tight {args text} ht := by
    obtain ⟨expr, rfl, -, rfl⟩ := around_eq_some.1 ht
    exact h.tight_append expr
  unquoted {args text} hargs ht := by
    obtain ⟨expr, rfl, -, rfl⟩ := around_eq_some.1 ht
    exact unquoted_append (unquoted_append h.unquoted.1 (hargs expr List.mem_cons_self)) h.unquoted.2

theorem trim_around_ne_nil {text : List Char} (h : Tight text) (front back : List Char) :
    trim (front ++ (text ++ back)) ≠ [] := by
  rw [trim_append front back h]
  simp [h.ne_nil]

theorem carried_between {transform : List (List Char) → Option (List Char)} {e : Ending}
    {plug : List Char → Prop} {args behind : List (List Char)} {front back first : List Char}
    (hplug : ∀ t, plug t → Tight t) (hfirst : first ≠ [] ∧ ending first = .free)
    (hu : Unquoted first) (hf : Unquoted front) (he : ending front = e) (last : List Char)
    (h : ∀ t, plug t → transform (args ++ trim (front ++ (t ++ back)) :: behind) =
      some (first ++ trim (front ++ (t ++ back)) ++ last)) :
    ∃ front' back', front' ≠ [] ∧ Unquoted front' ∧ ending front' = e ∧
      ∀ t, plug t → transform (args ++ trim (front ++ (t ++ back)) :: behind) =
        some (front' ++ (t ++ back')) := by
  refine ⟨first ++ trimStart front, trimEnd back ++ last, by simp [hfirst.1],
    unquoted_append hu (unquoted_trimStart.2 hf),
    (ending_append_trimStart hfirst.2 front).trans he, fun t ht => ?_⟩
  rw [h t ht, trim_append front back (hplug t ht)]
  simp only [List.append_assoc]

theorem single_of_ne {args behind : List (List Char)} (h : args ≠ [] ∨ behind ≠ [])
    (expr : List Char) : single (args ++ expr :: behind) = none := by
  cases hs : single (args ++ expr :: behind) with
  | none => rfl
  | some e =>
    obtain ⟨he, -⟩ := single_eq_some.1 hs
    cases args with
    | nil => exact absurd (List.cons.inj he).2 (by simpa using h)
    | cons a args => exact absurd (List.cons.inj he).2 (by simp)

theorem carries_around {first last : String} (h : Brackets first.toList last.toList) (e : Ending)
    {plug : List Char → Prop} (hplug : ∀ t, plug t → Tight t) :
    Carries e plug (around first last) := by
  intro args behind front back _ hf he
  by_cases hne : args ≠ [] ∨ behind ≠ []
  · exact .inl fun t _ => by rw [around, single_of_ne hne]; rfl
  · obtain ⟨rfl, rfl⟩ : args = [] ∧ behind = [] := by simpa using hne
    refine .inr (carried_between hplug h.free h.unquoted.1 hf he last.toList fun t ht => ?_)
    exact around_eq_some.2 ⟨_, rfl, trim_around_ne_nil (hplug t ht) front back, rfl⟩

theorem decimalCast_eq_some {args : List (List Char)} {text : List Char} :
    decimalCast args = some text ↔ ∃ expr precision scale, args = [expr, precision, scale] ∧
      expr ≠ [] ∧ isIntegerLiteral precision = true ∧ isIntegerLiteral scale = true ∧
      text = "CAST(".toList ++ expr ++ (" AS numeric(".toList ++ precision ++ [','] ++ scale
        ++ "))".toList) := by
  unfold decimalCast
  split
  · next expr precision scale =>
    constructor
    · intro h
      split at h
      · next hc =>
        simp only [Bool.and_eq_true, Bool.not_eq_true', List.isEmpty_eq_false_iff] at hc
        refine ⟨expr, precision, scale, rfl, hc.1.1, hc.1.2, hc.2, ?_⟩
        rw [← Option.some.inj h]
        simp only [List.append_assoc]
      · cases h
    · rintro ⟨e, p, s, he, hne, hp, hs, rfl⟩
      obtain ⟨rfl, rfl, rfl⟩ : expr = e ∧ precision = p ∧ scale = s := by simpa using he
      rw [if_pos (by simp [hne, hp, hs])]
      simp only [List.append_assoc]
  · next hne => exact ⟨nofun, fun ⟨e, p, s, he, _⟩ => absurd he (hne e p s)⟩

theorem formatCall_eq_some {args : List (List Char)} {text : List Char} :
    formatCall args = some text ↔ ∃ expr format, args = [expr, format] ∧ expr ≠ [] ∧
      isStringLiteral format = true ∧
      text = "to_char(".toList ++ expr ++ (", ".toList ++ format ++ [')']) := by
  unfold formatCall
  split
  · next expr format =>
    constructor
    · intro h
      split at h
      · next hc =>
        simp only [Bool.and_eq_true, Bool.not_eq_true', List.isEmpty_eq_false_iff] at hc
        refine ⟨expr, format, rfl, hc.1, hc.2, ?_⟩
        rw [← Option.some.inj h]
        simp only [List.append_assoc]
      · cases h
    · rintro ⟨e, f, he, hne, hf, rfl⟩
      obtain ⟨rfl, rfl⟩ : expr = e ∧ format = f := by simpa using he
      rw [if_pos (by simp [hne, hf])]
      simp only [List.append_assoc]
  · next hne => exact ⟨nofun, fun ⟨e, f, he, _⟩ => absurd he (hne e f)⟩

theorem inert_of_isIntegerLiteral {text : List Char} (h : isIntegerLiteral text = true) :
    Inert text := by
  simp only [isIntegerLiteral, Bool.and_eq_true, List.all_eq_true] at h
  intro c hc
  have hd := h.2 c hc
  refine ⟨?_, ?_, ?_, ?_⟩ <;> rintro rfl <;> exact absurd hd (by decide)

private theorem brackets_decimal {precision scale : List Char}
    (hp : isIntegerLiteral precision = true) (hs : isIntegerLiteral scale = true) :
    Brackets "CAST(".toList (" AS numeric(".toList ++ precision ++ [','] ++ scale
      ++ "))".toList) where
  opens := by decide
  closes := by
    have hp := inert_of_isIntegerLiteral hp
    have hs := inert_of_isIntegerLiteral hs
    have h₁ : (Place.mk false 1).walk true " AS numeric(".toList = some ⟨false, 2⟩ := by decide
    simp only [Place.walk_append, h₁, hp.walk, hs.walk, Option.bind_some]
    decide
  tight := by
    refine ⟨by decide, ?_⟩
    rw [List.getLast?_append]
    rfl
  unquoted := by
    have hp := (inert_of_isIntegerLiteral hp).neutral.unquoted
    have hs := (inert_of_isIntegerLiteral hs).neutral.unquoted
    exact ⟨by decide, unquoted_append (unquoted_append (unquoted_append (unquoted_append
      (by decide) hp) (by decide)) hs) (by decide)⟩
  free := by decide +kernel

theorem tidy_decimalCast : Tidy decimalCast where
  item {args text} hargs ht := by
    obtain ⟨expr, p, s, rfl, -, hp, hs, rfl⟩ := decimalCast_eq_some.1 ht
    exact (brackets_decimal hp hs).item (hargs expr (by simp))
  tight {args text} ht := by
    obtain ⟨expr, p, s, rfl, -, hp, hs, rfl⟩ := decimalCast_eq_some.1 ht
    exact (brackets_decimal hp hs).tight_append expr
  unquoted {args text} hargs ht := by
    obtain ⟨expr, p, s, rfl, -, hp, hs, rfl⟩ := decimalCast_eq_some.1 ht
    exact unquoted_append (unquoted_append (by decide) (hargs expr (by simp)))
      (brackets_decimal hp hs).unquoted.2

theorem carries_decimalCast (e : Ending) {plug : List Char → Prop}
    (hplug : ∀ t, plug t → Plug t) : Carries e plug decimalCast := by
  intro args behind front back _ hf he
  by_cases hc : args = [] ∧ ∃ p s, behind = [p, s] ∧ isIntegerLiteral p = true ∧
      isIntegerLiteral s = true
  · obtain ⟨rfl, p, s, rfl, hp, hs⟩ := hc
    have hb := brackets_decimal hp hs
    refine .inr (carried_between (fun t ht => (hplug t ht).tight) hb.free hb.unquoted.1 hf he _
      fun t ht => decimalCast_eq_some.2 ⟨_, p, s, rfl, ?_, hp, hs, rfl⟩)
    exact trim_around_ne_nil (hplug t ht).tight front back
  · refine .inl fun t ht => ?_
    cases hr : decimalCast (args ++ trim (front ++ (t ++ back)) :: behind) with
    | none => rfl
    | some text =>
      exfalso
      obtain ⟨expr, p, s, hargs, -, hp, hs, -⟩ := decimalCast_eq_some.1 hr
      have hmem : ')' ∈ trim (front ++ (t ++ back)) := by
        rw [trim_append front back (hplug t ht).tight]
        simp [List.mem_of_getLast? (hplug t ht).last]
      cases args with
      | nil =>
        obtain ⟨-, rfl⟩ := List.cons.inj hargs
        exact hc ⟨rfl, p, s, rfl, hp, hs⟩
      | cons a args =>
        have hin : trim (front ++ (t ++ back)) ∈ [p, s] := by
          rw [← (List.cons.inj hargs).2]
          simp
        rcases List.mem_cons.1 hin with he | hin
        · exact ((inert_of_isIntegerLiteral hp) _ (he ▸ hmem)).2.2.1 rfl
        · exact ((inert_of_isIntegerLiteral hs) _ (List.mem_singleton.1 hin ▸ hmem)).2.2.1 rfl

theorem tidy_formatCall : Tidy formatCall where
  item {args text} hargs ht := by
    obtain ⟨expr, format, rfl, -, -, rfl⟩ := formatCall_eq_some.1 ht
    have he := hargs expr (by simp)
    have hf := hargs format (by simp)
    have h₁ : (Place.mk false 0).walk true "to_char(".toList = some ⟨false, 1⟩ := by decide
    have h₂ : (Place.mk false 1).walk true ", ".toList = some ⟨false, 1⟩ := by decide
    rw [Item]
    simp only [Place.walk_append, h₁, h₂, he.walk, hf.walk, Option.bind_some]
    decide
  tight {args text} ht := by
    obtain ⟨expr, format, rfl, -, -, rfl⟩ := formatCall_eq_some.1 ht
    rw [List.append_assoc]
    refine tight_append rfl ?_
    rw [List.getLast?_append, List.getLast?_concat]
    rfl
  unquoted {args text} hargs ht := by
    obtain ⟨expr, format, rfl, -, -, rfl⟩ := formatCall_eq_some.1 ht
    exact unquoted_append (unquoted_append (by decide) (hargs expr (by simp)))
      (unquoted_append (unquoted_append (by decide) (hargs format (by simp))) (by decide))

private theorem isStringLiteral_plug {t : List Char} (ht : Plug t) (front back : List Char) :
    isStringLiteral (trim (front ++ (t ++ back))) =
      ((trimStart front).head? == some '\'' && (trimEnd back).getLast? == some '\'') := by
  rw [trim_append front back ht.tight, isStringLiteral]
  have hhead : (trimStart front ++ (t ++ trimEnd back)).head? =
      (trimStart front).head?.or t.head? := by
    have hne := ht.tight.ne_nil
    cases t with
    | nil => exact absurd rfl hne
    | cons c t => cases trimStart front <;> rfl
  have hlast : (trimStart front ++ (t ++ trimEnd back)).getLast? =
      (trimEnd back).getLast?.or t.getLast? := by
    rw [← List.append_assoc, List.getLast?_append, List.getLast?_append, ht.last]
    rfl
  rw [hhead, hlast, ht.last]
  have hlen : 0 < t.length := List.length_pos_iff.2 ht.tight.ne_nil
  cases hs : trimStart front with
  | nil =>
    have hq : (t.head? == some '\'') = false := by simpa using ht.head
    simp [hq]
  | cons c front' =>
    have h2 : 2 ≤ (c :: front' ++ (t ++ trimEnd back)).length := by
      simp only [List.cons_append, List.length_cons, List.length_append]
      omega
    cases hb : (trimEnd back).getLast? with
    | none => simp
    | some d =>
      rw [decide_eq_true h2]
      simp

/-- A plug may stand in the expression of a formatting call, and in a format that begins before it
and ends behind it. -/
theorem carries_formatCall (e : Ending) {plug : List Char → Prop}
    (hplug : ∀ t, plug t → Plug t) : Carries e plug formatCall := by
  intro args behind front back ha hf he
  by_cases hexpr : args = [] ∧ ∃ format, behind = [format] ∧ isStringLiteral format = true
  · obtain ⟨rfl, format, rfl, hlit⟩ := hexpr
    have hfree : "to_char(".toList ≠ [] ∧ ending "to_char(".toList = .free := by decide +kernel
    refine .inr (carried_between (fun t ht => (hplug t ht).tight) hfree (by decide) hf he _
      fun t ht => formatCall_eq_some.2 ⟨_, format, rfl, ?_, hlit, rfl⟩)
    exact trim_around_ne_nil (hplug t ht).tight front back
  by_cases hformat : (∃ expr, args = [expr] ∧ expr ≠ []) ∧ behind = [] ∧
      ((trimStart front).head? == some '\'' && (trimEnd back).getLast? == some '\'') = true
  · obtain ⟨⟨expr, rfl, hne⟩, rfl, hlit⟩ := hformat
    have hfree : ending ("to_char(".toList ++ expr ++ ", ".toList) = .free := by
      rw [ending_append _ (by decide)]
      decide +kernel
    have hu : Unquoted ("to_char(".toList ++ expr ++ ", ".toList) :=
      unquoted_append (unquoted_append (by decide) (ha expr List.mem_cons_self)) (by decide)
    refine .inr (carried_between (fun t ht => (hplug t ht).tight) ⟨by simp, hfree⟩ hu hf he [')']
      fun t ht => formatCall_eq_some.2 ⟨expr, _, rfl, hne, ?_, ?_⟩)
    · rw [isStringLiteral_plug (hplug t ht), hlit]
    · simp only [List.append_assoc]
  · refine .inl fun t ht => ?_
    cases hr : formatCall (args ++ trim (front ++ (t ++ back)) :: behind) with
    | none => rfl
    | some text =>
      exfalso
      obtain ⟨expr, format, hargs, hne, hlit, -⟩ := formatCall_eq_some.1 hr
      cases args with
      | nil =>
        obtain ⟨-, rfl⟩ := List.cons.inj hargs
        exact hexpr ⟨rfl, format, rfl, hlit⟩
      | cons a args =>
        obtain ⟨rfl, htail⟩ := List.cons.inj hargs
        cases args with
        | nil =>
          obtain ⟨rfl, rfl⟩ := List.cons.inj htail
          exact hformat ⟨⟨a, rfl, hne⟩, rfl, (isStringLiteral_plug (hplug t ht) front back) ▸ hlit⟩
        | cons b args => exact absurd (List.cons.inj htail).2 (by simp)

end ReportMigration.Sql
