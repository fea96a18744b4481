import ReportMigration.Proofs.Sql.Forest
import ReportMigration.Proofs.Sql.Pieces
import ReportMigration.Proofs.Sql.Pattern
import ReportMigration.Proofs.Sql.Seam

/-!
# The forest of a closed text

The tokens of a text whose literals are closed are regular. If its parentheses are closed as well,
they are the tokens of a forest, and a rule whose replacements are closed keeps every place of it
inside the parentheses and literals it stood in.
-/

namespace ReportMigration.Sql

open Text

variable {function : List Char} {before : Option Char}

namespace Token

/-- What a token of a text with closed literals looks like, behind a given character. -/
def Regular (function : List Char) (before : Option Char) : Token → Prop
  | literal text => Item text ∧ text.getLast? = some '\''
  | opening none => True
  | opening (some text) => Opens function text ∧ before.any isWord = false
  | closing => True
  | other c => c ≠ '\'' ∧ c ≠ '(' ∧ c ≠ ')'

/-- Every token is regular behind the one before it. -/
def RegularFrom (function : List Char) : Option Char → List Token → Prop
  | _, [] => True
  | before, t :: ts => t.Regular function before ∧ RegularFrom function t.source.getLast? ts

theorem Regular.getLast?_isSome {t : Token} (h : t.Regular function before) :
    t.source.getLast?.isSome = true := by
  cases t with
  | literal text => simp [source, h.2]
  | opening opener =>
    cases opener with
    | none => rfl
    | some text =>
      obtain ⟨name, blanks, rfl, -, -⟩ := h.1
      simp [source]
  | closing => rfl
  | other c => rfl

theorem regularFrom_append {ts us : List Token} : RegularFrom function before (ts ++ us) ↔
    RegularFrom function before ts ∧
      RegularFrom function ((ts.flatMap source).getLast?.or before) us := by
  induction ts generalizing before with
  | nil => simp [RegularFrom]
  | cons t ts ih =>
    rw [List.cons_append, RegularFrom, RegularFrom, ih, and_assoc]
    refine and_congr_right fun ht => and_congr_right fun _ => ?_
    have hsome := Option.isSome_iff_exists.1 ht.getLast?_isSome
    obtain ⟨c, hc⟩ := hsome
    rw [List.flatMap_cons, List.getLast?_append, hc, Option.or_assoc, Option.some_or]

/-- Every token is regular behind the one before it, but for a last literal that is never closed. -/
def LooseFrom (function : List Char) : Option Char → List Token → Prop
  | _, [] => True
  | before, t :: ts => t.Regular function before ∧ LooseFrom function t.source.getLast? ts ∨
      ts = [] ∧ ∃ text, t = literal text ∧ ¬ Unquoted text

/-- The tokens of a text are regular, but for a last literal that is never closed. -/
theorem looseFrom_cut (hf : Named function) (text : List Char) (before : Option Char) :
    LooseFrom function before (cut function before text) := by
  fun_induction cut function before text with
  | case1 => trivial
  | case2 before c rest u n hit ih =>
    obtain ⟨o, tail, he, ho, hn, hb⟩ := CallRule.opener_inv hf hit
    have htake : (c :: rest).take (n + 1) = o := by
      rw [he]
      exact List.take_left' hn.symm
    refine .inl ⟨⟨htake ▸ ho, hb⟩, ?_⟩
    rwa [source, Option.getD_some, CallRule.getLast?_opener hit]
  | case3 before rest hit ih =>
    rcases Literal.split_cases rest with ⟨hwalk, hlast⟩ | ⟨hrest, heven⟩
    · refine .inl ⟨⟨hwalk true 0, by simp [List.getLast?_cons, hlast]⟩, ?_⟩
      rwa [show (literal ('\'' :: (Literal.split rest).1)).source.getLast? = some '\'' by
        simp [source, List.getLast?_cons, hlast]]
    · have hsplit := Literal.split_append rest
      rw [hrest, List.append_nil] at hsplit
      refine .inr ⟨by rw [hrest, cut_nil], _, rfl, ?_⟩
      unfold Unquoted
      rw [hsplit, List.count_cons_self]
      omega
  | case4 before rest hq hit ih => exact .inl ⟨trivial, ih⟩
  | case5 before rest hq hp hit ih => exact .inl ⟨trivial, ih⟩
  | case6 before c rest hq hp hc hit ih => exact .inl ⟨⟨hq, hp, hc⟩, ih⟩

theorem walk_opens (hf : Named function) {text : List Char} (h : Opens function text)
    (commas : Bool) (depth : Nat) :
    (Place.mk false depth).walk commas text = some ⟨false, depth + 1⟩ := by
  obtain ⟨name, blanks, rfl, hname, hblanks⟩ := h
  have hinert : Inert (name ++ blanks) := by
    refine List.forall_mem_append.2 ⟨fun c hc => ?_, inert_of_isBlank hblanks⟩
    have hw := (hf.word hname).2 c hc
    refine ⟨?_, ?_, ?_, ?_⟩ <;> rintro rfl <;> exact absurd hw (by decide)
  rw [← List.append_assoc, Place.walk_append, hinert.walk]
  rfl

theorem Regular.walk_opening (hf : Named function) {opener : Option (List Char)}
    (h : (opening opener).Regular function before) (commas : Bool) (depth : Nat) :
    (Place.mk false depth).walk commas (opener.getD ['(']) = some ⟨false, depth + 1⟩ := by
  cases opener with
  | none => rfl
  | some text => exact walk_opens hf h.1 commas depth

theorem Regular.unquoted (hf : Named function) {t : Token} (h : t.Regular function before) :
    Unquoted t.source := by
  cases t with
  | literal text => exact h.1.closed.unquoted
  | opening opener =>
    have hq := Place.walk_quoted (h.walk_opening hf false 0)
    have hne : ¬ (opener.getD ['(']).count '\'' % 2 = 1 := by simpa using hq.symm
    change (opener.getD ['(']).count '\'' % 2 = 0
    omega
  | closing => rfl
  | other c => exact (unquoted_cons h.1).2 unquoted_nil

theorem LooseFrom.regularFrom (hf : Named function) {ts : List Token}
    (h : LooseFrom function before ts) (hu : Unquoted (ts.flatMap source)) :
    RegularFrom function before ts := by
  induction ts generalizing before with
  | nil => trivial
  | cons t ts ih =>
    rcases h with ⟨ht, hts⟩ | ⟨rfl, text, rfl, hne⟩
    · refine ⟨ht, ih hts ?_⟩
      have hs := ht.unquoted hf
      unfold Unquoted at hu hs ⊢
      rw [List.flatMap_cons, List.count_append] at hu
      omega
    · exact absurd (by simpa [source] using hu) hne

theorem regularFrom_cut (hf : Named function) {text : List Char} (h : Unquoted text)
    (before : Option Char) : RegularFrom function before (cut function before text) :=
  (looseFrom_cut hf text before).regularFrom hf (by rwa [source_cut])

theorem Regular.exists_head (hf : Named function) {opener : Option (List Char)}
    (h : (opening opener).Regular function before) :
    ∃ c tail, opener.getD ['('] = c :: tail ∧ (isWord c = true ∨ c = '(') := by
  cases opener with
  | none => exact ⟨'(', [], rfl, .inr rfl⟩
  | some text =>
    obtain ⟨c, rest, rfl, hc⟩ := h.1.exists_head hf
    exact ⟨c, rest, rfl, .inl hc⟩

theorem Regular.head?_opening (hf : Named function) {opener : Option (List Char)}
    (h : (opening opener).Regular function before) :
    (opener.getD ['(']).head?.any (fun c => !isBlank c) = true := by
  obtain ⟨c, tail, he, hword | rfl⟩ := h.exists_head hf
  · simp [he, isBlank_of_isWord hword]
  · rw [he, List.head?_cons, Option.any_some]
    decide

theorem Regular.getLast?_opening {opener : Option (List Char)}
    (h : (opening opener).Regular function before) : (opener.getD ['(']).getLast? = some '(' := by
  cases opener with
  | none => rfl
  | some text =>
    obtain ⟨name, blanks, rfl, -, -⟩ := h.1
    simp

end Token

open Token

namespace Forest

theorem regularFrom_group {opener : Option (List Char)} {inside rest : Forest}
    (h : RegularFrom function before (group opener inside rest).tokens) :
    (opening opener).Regular function before ∧ RegularFrom function (some '(') inside.tokens ∧
      RegularFrom function (some ')') rest.tokens := by
  obtain ⟨ho, hr⟩ := h
  rw [Token.source, ho.getLast?_opening, regularFrom_append] at hr
  exact ⟨ho, hr.1, hr.2.2⟩

theorem source_group (opener : Option (List Char)) (inside rest : Forest) :
    (group opener inside rest).source =
      (opener.getD ['('] ++ (inside.source ++ [')'])) ++ rest.source := by
  simp [source, tokens, Token.source]

theorem closed_source (hf : Named function) {f : Forest}
    (h : RegularFrom function before f.tokens) : Closed f.source := by
  induction f generalizing before with
  | nil => rfl
  | literal text rest ih =>
    change Closed (text ++ rest.source)
    rw [Closed, Place.walk_append, h.1.1.closed]
    exact ih h.2
  | other c rest ih =>
    obtain ⟨⟨hq, ho, hc⟩, hr⟩ := h
    change Closed (c :: rest.source)
    rw [Closed, Place.walk_cons, show (Place.mk false 0).step false c = some ⟨false, 0⟩ by
      simp [Place.step, hq, ho, hc]]
    exact ih hr
  | group opener inside rest ihi ihr =>
    obtain ⟨ho, hi, hr⟩ := regularFrom_group h
    rw [source_group, Closed, Place.walk_append, Place.walk_append, ho.walk_opening hf,
      Option.bind_some, Place.walk_append, (ihi hi).walk]
    exact ihr hr

theorem item_group (hf : Named function) {opener : Option (List Char)}
    (h : (opening opener).Regular function before) {inside : List Char} (hi : Closed inside) :
    Item (opener.getD ['('] ++ (inside ++ [')'])) := by
  rw [Item, Place.walk_append, h.walk_opening hf, Option.bind_some, Place.walk_append, hi.walk]
  rfl

end Forest

namespace Reading

@[simp] theorem length_strays_extend (grow : Forest → Forest) (r : Reading) :
    (r.extend grow).strays.length = r.strays.length := by
  obtain ⟨strays, middle, unclosed⟩ := r
  cases strays <;> rfl

@[simp] theorem unclosed_extend (grow : Forest → Forest) (r : Reading) :
    (r.extend grow).unclosed = r.unclosed := by
  obtain ⟨strays, middle, unclosed⟩ := r
  cases strays <;> rfl

theorem ofTokens_closed (hf : Named function) {ts : List Token} {depth : Nat}
    (h : RegularFrom function before ts)
    (hw : (Place.mk false depth).walk false (ts.flatMap Token.source) = some ⟨false, 0⟩) :
    (ofTokens ts).strays.length = depth ∧ (ofTokens ts).unclosed = [] := by
  induction ts generalizing before depth with
  | nil =>
    obtain rfl : depth = 0 := by simpa using hw
    exact ⟨rfl, rfl⟩
  | cons t ts ih =>
    obtain ⟨ht, hts⟩ := h
    rw [List.flatMap_cons, Place.walk_append] at hw
    cases t with
    | literal text =>
      rw [Token.source, ht.1.walk] at hw
      simpa [ofTokens] using ih hts hw
    | other c =>
      obtain ⟨hq, ho, hc⟩ := ht
      have hstep : (Place.mk false depth).walk false [c] = some ⟨false, depth⟩ := by
        simp [Place.walk_cons, Place.step, hq, ho, hc]
      rw [Token.source, hstep] at hw
      simpa [ofTokens] using ih hts hw
    | closing =>
      cases depth with
      | zero => cases hw
      | succ depth =>
        have hw : (Place.mk false depth).walk false (ts.flatMap Token.source) = some ⟨false, 0⟩ := hw
        obtain ⟨hs, hu⟩ := ih hts hw
        exact ⟨by simp [ofTokens, hs], hu⟩
    | opening opener =>
      rw [Token.source, ht.walk_opening hf] at hw
      obtain ⟨hs, hu⟩ := ih hts hw
      rw [ofTokens]
      generalize ofTokens ts = r at hs hu
      obtain ⟨strays, middle, unclosed⟩ := r
      cases strays with
      | nil => cases hs
      | cons inside strays =>
        rw [enclose, length_strays_extend, unclosed_extend]
        exact ⟨Nat.succ.inj hs, hu⟩

end Reading

theorem exists_forest (hf : Named function) {text : List Char} (h : Closed text)
    (before : Option Char) : ∃ f : Forest, Reading.ofTokens (cut function before text) = ⟨[], f, []⟩ ∧
      cut function before text = f.tokens ∧ RegularFrom function before f.tokens ∧
      f.source = text := by
  have hregular := regularFrom_cut hf h.unquoted before
  have hsource := source_cut function before text
  obtain ⟨hs, hu⟩ := Reading.ofTokens_closed hf hregular (by rw [hsource]; exact h)
  have htokens := Reading.tokens_ofTokens (cut function before text)
  generalize Reading.ofTokens (cut function before text) = r at hs hu htokens
  obtain ⟨strays, middle, unclosed⟩ := r
  obtain rfl : strays = [] := List.length_eq_zero_iff.1 hs
  obtain rfl : unclosed = [] := hu
  have he : cut function before text = middle.tokens := by
    rw [← htokens]
    simp [Reading.tokens]
  exact ⟨middle, rfl, he, he ▸ hregular, by rw [Forest.source, ← he, hsource]⟩

/-- A transform that puts items, and not only white space, in the place of calls. -/
structure Tidy (transform : List (List Char) → Option (List Char)) : Prop where
  item : ∀ {args text}, (∀ a ∈ args, Item a) → transform args = some text → Item text
  tight : ∀ {args text}, transform args = some text → Tight text
  unquoted : ∀ {args text}, (∀ a ∈ args, Unquoted a) → transform args = some text → Unquoted text

variable {rule : CallRule}

theorem Tidy.item_settled (ht : Tidy rule.transform) (hf : Named function)
    {opener : Option (List Char)} (h : (opening opener).Regular function before)
    {inside : List Char} (hi : Closed inside) : Item (rule.settled opener inside) := by
  rw [CallRule.settled]
  cases hr : rule.replacement opener inside with
  | none => simpa using Forest.item_group hf h hi
  | some text =>
    obtain ⟨o, rfl, he⟩ := Option.bind_eq_some_iff.1 hr
    exact ht.item (fun a ha => Arguments.item_of_mem_split hi ha) he

theorem Tidy.tight_settled (ht : Tidy rule.transform) (hf : Named function)
    {opener : Option (List Char)} (h : (opening opener).Regular function before)
    (inside : List Char) : Tight (rule.settled opener inside) := by
  rw [CallRule.settled]
  cases hr : rule.replacement opener inside with
  | none =>
    rw [Option.getD_none, List.append_assoc]
    exact tight_append (h.head?_opening hf) (by rw [List.getLast?_append]; rfl)
  | some text =>
    obtain ⟨o, rfl, he⟩ := Option.bind_eq_some_iff.1 hr
    exact ht.tight he

namespace Forest

theorem walk_evaluate (ht : Tidy rule.transform) (hf : Named function) {f : Forest}
    (h : RegularFrom function before f.tokens) (commas : Bool) (depth : Nat) :
    (Place.mk false depth).walk commas (f.evaluate rule) =
      (Place.mk false depth).walk commas f.source := by
  induction f generalizing before commas depth with
  | nil => rfl
  | literal text rest ih =>
    change Place.walk _ _ (text ++ _) = Place.walk _ _ (text ++ rest.source)
    rw [Place.walk_append, Place.walk_append, h.1.1.walk]
    exact ih h.2 commas depth
  | other c rest ih =>
    obtain ⟨⟨hq, ho, hc⟩, hr⟩ := h
    change Place.walk _ _ (c :: _) = Place.walk _ _ (c :: rest.source)
    rw [Place.walk_cons, Place.walk_cons]
    have hstep : (Place.mk false depth).step commas c = none ∨
        (Place.mk false depth).step commas c = some ⟨false, depth⟩ := by
      simp only [Place.step, hq, ho, hc, if_false]
      split <;> simp
    rcases hstep with hs | hs
    · rw [hs]
      rfl
    · rw [hs]
      exact ih hr commas depth
  | group opener inside rest ihi ihr =>
    obtain ⟨ho, hi, hr⟩ := regularFrom_group h
    have hclosed : Closed (inside.evaluate rule) :=
      (ihi hi false 0).trans (closed_source hf hi)
    rw [source_group, evaluate, Place.walk_append, Place.walk_append,
      (ht.item_settled hf ho hclosed).walk, (item_group hf ho (closed_source hf hi)).walk]
    exact ihr hr commas depth

theorem closed_evaluate (ht : Tidy rule.transform) (hf : Named function) {f : Forest}
    (h : RegularFrom function before f.tokens) : Closed (f.evaluate rule) :=
  (walk_evaluate ht hf h false 0).trans (closed_source hf h)

/-- The evaluation of a forest begins and ends with a character of a kind where its text does, if
neither calls nor what takes their place begin or end with one. -/
theorem ends_evaluate (hf : Named function) {kind : Char → Bool}
    (hkind : ∀ c, isWord c = true ∨ c = '(' ∨ c = ')' → kind c = false)
    (ht : ∀ {args text}, rule.transform args = some text →
      text.head?.map kind = some false ∧ text.getLast?.map kind = some false)
    {f : Forest} (h : RegularFrom function before f.tokens) :
    (f.evaluate rule).head?.map kind = f.source.head?.map kind ∧
      (f.evaluate rule).getLast?.map kind = f.source.getLast?.map kind := by
  induction f generalizing before with
  | nil => exact ⟨rfl, rfl⟩
  | literal text rest ih =>
    obtain ⟨hhead, hlast⟩ := ih h.2
    change (text ++ rest.evaluate rule).head?.map _ = (text ++ rest.source).head?.map _ ∧
      (text ++ rest.evaluate rule).getLast?.map _ = (text ++ rest.source).getLast?.map _
    simp only [List.head?_append, List.getLast?_append, Option.map_or, hhead, hlast, and_self]
  | other c rest ih =>
    obtain ⟨hhead, hlast⟩ := ih h.2
    change ([c] ++ rest.evaluate rule).head?.map _ = ([c] ++ rest.source).head?.map _ ∧
      ([c] ++ rest.evaluate rule).getLast?.map _ = ([c] ++ rest.source).getLast?.map _
    simp only [List.head?_append, List.getLast?_append, Option.map_or, hhead, hlast, and_self]
  | group opener inside rest ihi ihr =>
    obtain ⟨ho, hi, hr⟩ := regularFrom_group h
    obtain ⟨hhead, hlast⟩ := ihr hr
    have hkept : ∀ inside : List Char,
        (opener.getD ['('] ++ (inside ++ [')'])).head?.map kind = some false ∧
          (opener.getD ['('] ++ (inside ++ [')'])).getLast?.map kind = some false := by
      intro inside
      obtain ⟨c, tail, he, hc⟩ := ho.exists_head hf
      rw [he, ← List.append_assoc, List.getLast?_concat]
      exact ⟨congrArg some (hkind c (hc.imp_right .inl)), congrArg some (hkind ')' (.inr (.inr rfl)))⟩
    have hsettled : (rule.settled opener (inside.evaluate rule)).head?.map kind = some false ∧
        (rule.settled opener (inside.evaluate rule)).getLast?.map kind = some false := by
      rw [CallRule.settled]
      cases ht' : rule.replacement opener (inside.evaluate rule) with
      | none => simpa using hkept (inside.evaluate rule)
      | some text =>
        obtain ⟨o, rfl, he⟩ := Option.bind_eq_some_iff.1 ht'
        exact ht he
    obtain ⟨hs, hs'⟩ := hsettled
    obtain ⟨hw, hw'⟩ := hkept inside.source
    rw [source_group, evaluate]
    constructor
    · rw [List.head?_append, List.head?_append, Option.map_or, Option.map_or, hs, hw]
      rfl
    · rw [List.getLast?_append, List.getLast?_append, Option.map_or, Option.map_or, hlast, hs', hw']

theorem solid_evaluate (ht : Tidy rule.transform) (hf : Named function) {f : Forest}
    (h : RegularFrom function before f.tokens) : Solid (f.evaluate rule) ↔ Solid f.source := by
  induction f generalizing before with
  | nil => rfl
  | literal text rest ih =>
    change Solid (text ++ _) ↔ Solid (text ++ rest.source)
    rw [solid_append, solid_append, ih h.2]
  | other c rest ih =>
    change Solid ([c] ++ _) ↔ Solid ([c] ++ rest.source)
    rw [solid_append, solid_append, ih h.2]
  | group opener inside rest ihi ihr =>
    obtain ⟨ho, hi, hr⟩ := regularFrom_group h
    rw [source_group, evaluate, solid_append, solid_append, ihr hr]
    exact or_congr_left ⟨fun _ => ⟨')', by simp, by decide⟩,
      fun _ => (ht.tight_settled hf ho _).solid⟩

end Forest

end ReportMigration.Sql
