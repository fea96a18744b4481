import ReportMigration.Proofs.Text.Trim
import ReportMigration.Sql.Arguments

/-!
# Nesting

Where a place in a text stands: inside a string literal or not, and inside how many parentheses. A
text is closed when it leaves both as they were and closes no parenthesis that it did not open; it
is an item when it holds no comma at the top level either. The arguments of a closed text are
items.
-/

namespace ReportMigration.Sql

open Text

/-- A place in a text. -/
structure Place where
  quoted : Bool
  depth : Nat
deriving DecidableEq, Repr

namespace Place

/-- The place behind a character. There is none behind a parenthesis that closes nothing and, if
commas count, behind a comma at the top level. -/
def step (commas : Bool) (p : Place) (c : Char) : Option Place :=
  if c = '\'' then some { p with quoted := !p.quoted }
  else if p.quoted then some p
  else if c = '(' then some { p with depth := p.depth + 1 }
  else if c = ')' then if p.depth = 0 then none else some { p with depth := p.depth - 1 }
  else if c = ',' ∧ p.depth = 0 ∧ commas then none
  else some p

def walk (commas : Bool) (p : Place) (text : List Char) : Option Place :=
  text.foldlM (step commas) p

@[simp] theorem walk_nil (commas : Bool) (p : Place) : p.walk commas [] = some p := rfl

theorem walk_cons (commas : Bool) (p : Place) (c : Char) (text : List Char) :
    p.walk commas (c :: text) = (p.step commas c).bind fun q => q.walk commas text := rfl

theorem walk_append (commas : Bool) (p : Place) (s t : List Char) :
    p.walk commas (s ++ t) = (p.walk commas s).bind fun q => q.walk commas t :=
  List.foldlM_append

/-- Inside more parentheses a text goes the same way, and its commas are not at the top level. -/
theorem walk_deeper {p q : Place} {text : List Char} (h : p.walk false text = some q) (n : Nat)
    (commas : Bool) :
    (Place.mk p.quoted (p.depth + (n + 1))).walk commas text =
      some ⟨q.quoted, q.depth + (n + 1)⟩ := by
  induction text generalizing p with
  | nil =>
    obtain rfl : p = q := by simpa using h
    rfl
  | cons c text ih =>
    rw [walk_cons] at h ⊢
    obtain ⟨r, hr, hq⟩ := Option.bind_eq_some_iff.1 h
    have hstep : (Place.mk p.quoted (p.depth + (n + 1))).step commas c =
        some ⟨r.quoted, r.depth + (n + 1)⟩ := by
      obtain ⟨quoted, depth⟩ := p
      unfold step at hr ⊢
      grind
    rw [hstep]
    exact ih hq

end Place

/-- Every literal and every parenthesis of the text is closed in it. -/
def Closed (text : List Char) : Prop :=
  (Place.mk false 0).walk false text = some ⟨false, 0⟩

/-- A closed text without a comma at the top level. -/
def Item (text : List Char) : Prop :=
  (Place.mk false 0).walk true text = some ⟨false, 0⟩

instance (text : List Char) : Decidable (Closed text) :=
  inferInstanceAs (Decidable (_ = _))

instance (text : List Char) : Decidable (Item text) :=
  inferInstanceAs (Decidable (_ = _))

/-- A text ends outside string literals. -/
def Unquoted (text : List Char) : Prop :=
  text.count '\'' % 2 = 0

instance (text : List Char) : Decidable (Unquoted text) :=
  inferInstanceAs (Decidable (_ = _))

variable {text : List Char}

theorem Place.walk_false_of_true {p q : Place} (h : p.walk true text = some q) :
    p.walk false text = some q := by
  induction text generalizing p with
  | nil => exact h
  | cons c text ih =>
    rw [walk_cons] at h ⊢
    obtain ⟨r, hr, hq⟩ := Option.bind_eq_some_iff.1 h
    have hstep : p.step false c = some r := by
      unfold step at hr ⊢
      grind
    rw [hstep]
    exact ih hq

theorem Item.closed (h : Item text) : Closed text :=
  Place.walk_false_of_true h

theorem Closed.walk (h : Closed text) (commas : Bool) (depth : Nat) :
    (Place.mk false (depth + 1)).walk commas text = some ⟨false, depth + 1⟩ := by
  simpa using Place.walk_deeper h depth commas

theorem Item.walk (h : Item text) (commas : Bool) (depth : Nat) :
    (Place.mk false depth).walk commas text = some ⟨false, depth⟩ := by
  cases depth with
  | zero =>
    cases commas with
    | false => exact h.closed
    | true => exact h
  | succ depth => exact h.closed.walk commas depth

theorem Place.step_quoted {commas : Bool} {p q : Place} {c : Char} (h : p.step commas c = some q) :
    q.quoted = (p.quoted != (c == '\'')) := by
  unfold step at h
  grind

/-- Only a parenthesis that closes nothing and a comma at the top level have no place behind
them. -/
theorem Place.of_step_eq_none {p : Place} {c : Char} (h : p.step true c = none) :
    (c = ')' ∨ c = ',') ∧ p = ⟨false, 0⟩ := by
  obtain ⟨quoted, depth⟩ := p
  unfold step at h
  grind

/-- A text of an even number of quotes ends where it begins, inside a literal or outside. -/
theorem Place.walk_quoted {commas : Bool} {p q : Place} (h : p.walk commas text = some q) :
    q.quoted = (p.quoted != decide (text.count '\'' % 2 = 1)) := by
  induction text generalizing p with
  | nil =>
    obtain rfl : p = q := by simpa using h
    simp
  | cons c text ih =>
    rw [walk_cons] at h
    obtain ⟨r, hr, hq⟩ := Option.bind_eq_some_iff.1 h
    rw [ih hq, step_quoted hr]
    by_cases hc : c = '\''
    · rcases Nat.mod_two_eq_zero_or_one (text.count '\'') with he | he <;>
        simp [hc, Nat.add_mod, he]
    · have hb : (c == '\'') = false := by simpa using hc
      rw [List.count_cons_of_ne hc, hb, Bool.bne_false]

theorem Closed.unquoted (h : Closed text) : Unquoted text := by
  have hq := Place.walk_quoted h
  unfold Unquoted
  simp only [Bool.false_bne] at hq
  have : ¬ text.count '\'' % 2 = 1 := by simpa using hq.symm
  omega

theorem unquoted_nil : Unquoted [] := rfl

theorem unquoted_cons {c : Char} (hc : c ≠ '\'') : Unquoted (c :: text) ↔ Unquoted text := by
  unfold Unquoted
  rw [List.count_cons_of_ne hc]

theorem unquoted_quote : Unquoted ('\'' :: text) ↔ text.count '\'' % 2 = 1 := by
  unfold Unquoted
  rw [List.count_cons_self]
  omega

theorem unquoted_append {s t : List Char} (hs : Unquoted s) (ht : Unquoted t) :
    Unquoted (s ++ t) := by
  unfold Unquoted at *
  rw [List.count_append]
  omega

/-- Nothing in the text opens, closes or separates anything. -/
def Inert (text : List Char) : Prop :=
  ∀ c ∈ text, c ≠ '\'' ∧ c ≠ '(' ∧ c ≠ ')' ∧ c ≠ ','

instance (text : List Char) : Decidable (Inert text) :=
  decidable_of_iff (text.all fun c => c != '\'' && c != '(' && c != ')' && c != ',')
    (by simp [Inert, and_assoc])

theorem Inert.walk (h : Inert text) (commas : Bool) (p : Place) :
    p.walk commas text = some p := by
  induction text with
  | nil => rfl
  | cons c text ih =>
    obtain ⟨⟨hq, ho, hc, hs⟩, ht⟩ := List.forall_mem_cons.1 h
    rw [Place.walk_cons, show p.step commas c = some p by simp [Place.step, hq, ho, hc, hs]]
    exact ih ht

/-- A text behind which a reader is where it was. -/
def Neutral (text : List Char) : Prop :=
  ∀ commas p, Place.walk commas p text = some p

theorem Inert.neutral (h : Inert text) : Neutral text :=
  h.walk

theorem Neutral.append {s t : List Char} (hs : Neutral s) (ht : Neutral t) : Neutral (s ++ t) := by
  intro commas p
  rw [Place.walk_append, hs, Option.bind_some, ht]

theorem neutral_quoted (h : Inert text) : Neutral ('\'' :: (text ++ ['\''])) := by
  intro commas p
  rw [Place.walk_cons, show p.step commas '\'' = some { p with quoted := !p.quoted } from rfl,
    Option.bind_some, Place.walk_append, h.walk, Option.bind_some, Place.walk_cons]
  simp [Place.step]

theorem inert_of_isBlank (h : text.all isBlank = true) : Inert text := by
  intro c hc
  have hb := List.all_eq_true.1 h c hc
  refine ⟨?_, ?_, ?_, ?_⟩ <;> rintro rfl <;> exact absurd hb (by decide)

theorem Place.walk_trim (commas : Bool) (p : Place) (text : List Char) :
    p.walk commas (trim text) = p.walk commas text := by
  obtain ⟨lead, trail, hl, ht, he⟩ := exists_trim text
  conv => rhs; rw [he]
  rw [walk_append, (inert_of_isBlank hl).walk, Option.bind_some, walk_append]
  cases p.walk commas (trim text) with
  | none => rfl
  | some q => exact ((inert_of_isBlank ht).walk commas q).symm

theorem Item.trim (h : Item text) : Item (trim text) :=
  (Place.walk_trim true _ text).trans h

end ReportMigration.Sql
