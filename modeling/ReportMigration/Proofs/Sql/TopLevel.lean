import ReportMigration.Proofs.Sql.Balance
import ReportMigration.Proofs.Sql.Positions.Commas
import ReportMigration.Proofs.Text.Spacing

/-!
# Commas at the top level

The text in front of a comma says whether it is at the top level: its quotes and, of its parentheses,
those that an even number of quotes precedes. The readers of arguments, of commas and of literals each
go through a text in their own way, and they find what these counts say. So the arguments of texts
with a comma between them are those of both texts.
-/

namespace ReportMigration.Sql

open Text

/-- How many parentheses are open behind the text. One that closes nothing is passed over. -/
def depthBehind (text : List Char) : ℕ :=
  (parentheses 0 text).foldl (fun depth c => if c = '(' then depth + 1 else depth - 1) 0

/-- What follows the text is at the top level: outside literals and outside parentheses. -/
def AtTopLevel (text : List Char) : Prop :=
  Unquoted text ∧ depthBehind text = 0

/-- No comma of the text is at the top level. -/
def Undivided (text : List Char) : Prop :=
  ∀ i < text.length, text[i]? = some ',' → ¬ AtTopLevel (text.take i)

instance (text : List Char) : Decidable (AtTopLevel text) :=
  inferInstanceAs (Decidable (_ ∧ _))

instance (text : List Char) : Decidable (Undivided text) :=
  inferInstanceAs (Decidable (∀ i < text.length, text[i]? = some ',' → ¬ AtTopLevel (text.take i)))

def tally (text : List Char) : Tally :=
  (Tally.mk false 0 0).read text

variable {t : Tally} {c : Char} {text front back : List Char}

theorem tally_append (front back : List Char) : tally (front ++ back) = (tally front).read back :=
  Tally.read_append _ _ _

theorem tally_quoted (text : List Char) : (tally text).quoted = decide (text.count '\'' % 2 = 1) := by
  rw [tally, Tally.read_quoted, Bool.false_bne]

theorem tally_unclosed (text : List Char) : (tally text).unclosed = depthBehind text := by
  have hread := Tally.read_parentheses (Tally.mk false 0 0) 0 rfl text
  have hfold : ∀ (word : List Char) (t : Tally), t.quoted = false →
      (∀ c ∈ word, c = '(' ∨ c = ')') → (t.read word).unclosed =
        word.foldl (fun depth c => if c = '(' then depth + 1 else depth - 1) t.unclosed := by
    intro word
    induction word with
    | nil => exact fun _ _ _ => rfl
    | cons c word ih =>
      intro t ht h
      obtain ⟨hc, hword⟩ := List.forall_mem_cons.1 h
      have hquoted : (t.step c).quoted = false := by
        rw [Tally.step_quoted, ht]
        rcases hc with rfl | rfl <;> rfl
      rw [Tally.read_cons, ih _ hquoted hword, List.foldl_cons]
      congr 1
      rcases hc with rfl | rfl
      · simp [Tally.step, ht]
      · unfold Tally.step
        grind
  rw [depthBehind, ← hfold _ ⟨false, 0, 0⟩ rfl fun c hc => Tally.isParenthesis_of_mem hc, hread]
  rfl

theorem atTopLevel_iff : AtTopLevel text ↔ (tally text).quoted = false ∧ (tally text).unclosed = 0 := by
  rw [tally_quoted, tally_unclosed, AtTopLevel, Unquoted, decide_eq_false_iff_not]
  exact and_congr_left' (by omega)

namespace Arguments

/-- A first piece and others, the last of which goes on with what is cut next. -/
def resume : List Char → List (List Char) → List Char × List (List Char) →
    List Char × List (List Char)
  | first, [], next => prepend first next
  | first, piece :: others, next => (first, (resume piece others next).1 :: (resume piece others next).2)

theorem prepend_resume (text first : List Char) (others : List (List Char))
    (next : List Char × List (List Char)) :
    prepend text (resume first others next) = resume (text ++ first) others next := by
  cases others with
  | nil => exact prepend_prepend text first next
  | cons piece others => rfl

theorem resume_comma (first : List Char) (others pieces : List (List Char)) :
    resume first others ([], pieces) = (first, others ++ pieces) := by
  induction others generalizing first with
  | nil => simp [resume, prepend]
  | cons piece others ih => rw [resume, ih, List.cons_append]

/-- A reader goes on behind a character in the same piece, unless it is a comma at the top level. -/
theorem cut_step (h : ¬ (c = ',' ∧ t.quoted = false ∧ t.unclosed = 0)) (rest : List Char) :
    cut t.quoted t.unclosed (c :: rest) =
      prepend [c] (cut (t.step c).quoted (t.step c).unclosed rest) := by
  cases hp : (Place.mk t.quoted t.unclosed).step true c with
  | some q =>
    have hq : q = ⟨(t.step c).quoted, (t.step c).unclosed⟩ := by
      unfold Place.step at hp
      unfold Tally.step
      grind
    rw [cut_cons hp, hq]
  | none =>
    -- The only other character that stops a place is a parenthesis that closes nothing.
    obtain ⟨quoted, strays, unclosed⟩ := t
    obtain ⟨rfl | rfl, outside⟩ := Place.of_step_eq_none hp
    · obtain ⟨rfl, rfl⟩ := Place.mk.inj outside
      exact cut_stray rest
    · exact absurd ⟨rfl, Place.mk.inj outside⟩ h

theorem cut_resume (t : Tally) (front back : List Char) :
    cut t.quoted t.unclosed (front ++ back) =
      resume (cut t.quoted t.unclosed front).1 (cut t.quoted t.unclosed front).2
        (cut (t.read front).quoted (t.read front).unclosed back) := by
  induction front generalizing t with
  | nil =>
    have hnil : cut t.quoted t.unclosed [] = ([], []) := by cases t.quoted <;> rfl
    rw [List.nil_append, Tally.read_nil, hnil]
    rfl
  | cons c front ih =>
    rw [Tally.read_cons, List.cons_append]
    by_cases htop : c = ',' ∧ t.quoted = false ∧ t.unclosed = 0
    · obtain ⟨quoted, strays, unclosed⟩ := t
      obtain ⟨rfl, rfl, rfl⟩ := htop
      have hrest := ih ⟨false, strays, 0⟩
      simp only at hrest ⊢
      rw [cut_comma, cut_comma, pieces, pieces, hrest]
      rfl
    · rw [cut_step htop, cut_step htop, ih, prepend_resume]
      rfl

theorem cut_append_tally (front back : List Char) :
    cut false 0 (front ++ back) =
      resume (cut false 0 front).1 (cut false 0 front).2
        (cut (tally front).quoted (tally front).unclosed back) :=
  cut_resume ⟨false, 0, 0⟩ front back

theorem pieces_comma (h : AtTopLevel front) (back : List Char) :
    pieces (front ++ ',' :: back) = pieces front ++ pieces back := by
  obtain ⟨hq, hd⟩ := atTopLevel_iff.1 h
  rw [pieces, cut_append_tally, hq, hd, cut_comma, resume_comma]
  rfl

theorem split_comma (h : AtTopLevel front) (back : List Char) :
    split (front ++ ',' :: back) = split front ++ split back := by
  rw [split, pieces_comma h, List.map_append]
  rfl

/-- The breaks of a text that begins at a position, in the state that a tally says. -/
def breaksIn (t : Tally) (position : ℕ) (text : List Char) : List (ℕ × ℕ) :=
  breaksFrom (position + byteLength (cut t.quoted t.unclosed text).1) (cut t.quoted t.unclosed text).2

theorem breaksIn_nil (t : Tally) (position : ℕ) : breaksIn t position [] = [] := by
  obtain ⟨_ | _, strays, unclosed⟩ := t <;> rfl

theorem breaksIn_step (h : ¬ (c = ',' ∧ t.quoted = false ∧ t.unclosed = 0)) (position : ℕ)
    (rest : List Char) :
    breaksIn t position (c :: rest) = breaksIn (t.step c) (position + c.utf8Size) rest := by
  rw [breaksIn, breaksIn, cut_step h, prepend, List.singleton_append, byteLength_cons, Nat.add_assoc]

theorem breaksIn_comma (strays position : ℕ) (rest : List Char) :
    breaksIn ⟨false, strays, 0⟩ position (',' :: rest) =
      (position, position + 1 + byteLength (rest.takeWhile isBlank)) ::
        breaksIn ⟨false, strays, 0⟩ (position + 1) rest := by
  have hgap := Positions.takeWhile_pieces (cut false 0 rest).1 (cut false 0 rest).2
  rw [show _ ++ _ = rest from text_cut ⟨false, 0⟩ rest] at hgap
  simp only [breaksIn, cut_comma, pieces, breaksFrom, byteLength_nil, Nat.add_zero, hgap]

private theorem exists_split_cons {c d : Char} {P : List Char → List Char → Prop} :
    (∃ front back, c :: text = front ++ d :: back ∧ P front back) ↔
      (c = d ∧ P [] text) ∨ ∃ front back, text = front ++ d :: back ∧ P (c :: front) back := by
  constructor
  · rintro ⟨front, back, he, hp⟩
    cases front with
    | nil =>
      obtain ⟨rfl, rfl⟩ := List.cons.inj he
      exact .inl ⟨rfl, hp⟩
    | cons e front =>
      obtain ⟨rfl, rfl⟩ := List.cons.inj he
      exact .inr ⟨front, back, rfl, hp⟩
  · rintro (⟨rfl, hp⟩ | ⟨front, back, rfl, hp⟩)
    · exact ⟨[], text, rfl, hp⟩
    · exact ⟨c :: front, back, rfl, hp⟩

theorem mem_breaksIn {position comma stop : ℕ} : (comma, stop) ∈ breaksIn t position text ↔
    ∃ front back, text = front ++ ',' :: back ∧ (t.read front).quoted = false ∧
      (t.read front).unclosed = 0 ∧ comma = position + byteLength front ∧
      stop = comma + 1 + byteLength (back.takeWhile isBlank) := by
  induction text generalizing t position with
  | nil => simp [breaksIn_nil]
  | cons c text ih =>
    simp only [exists_split_cons, Tally.read_nil, Tally.read_cons, byteLength_nil, Nat.add_zero, byteLength_cons]
    by_cases htop : c = ',' ∧ t.quoted = false ∧ t.unclosed = 0
    · obtain ⟨quoted, strays, unclosed⟩ := t
      obtain ⟨rfl, rfl, rfl⟩ := htop
      have hstep : (Tally.mk false strays 0).step ',' = ⟨false, strays, 0⟩ := rfl
      have hsize : ','.utf8Size = 1 := rfl
      rw [breaksIn_comma, List.mem_cons, ih, hstep, hsize]
      simp only [Prod.mk.injEq, true_and, Nat.add_assoc]
      refine or_congr_left ?_
      constructor
      · rintro ⟨rfl, rfl⟩
        exact ⟨rfl, rfl⟩
      · rintro ⟨rfl, rfl⟩
        exact ⟨rfl, rfl⟩
    · rw [breaksIn_step htop, ih]
      have hfirst : ¬ (c = ',' ∧ t.quoted = false ∧ t.unclosed = 0 ∧ comma = position ∧
          stop = comma + 1 + byteLength (text.takeWhile isBlank)) :=
        fun h => htop ⟨h.1, h.2.1, h.2.2.1⟩
      rw [or_iff_right hfirst]
      simp only [Nat.add_assoc]

theorem breaks_eq (text : List Char) : breaks text = breaksIn ⟨false, 0, 0⟩ 0 text := by
  rw [breaks, breaksIn, Nat.zero_add]

theorem mem_breaks {comma stop : ℕ} : (comma, stop) ∈ breaks text ↔
    ∃ front back, text = front ++ ',' :: back ∧ AtTopLevel front ∧ comma = byteLength front ∧
      stop = comma + 1 + byteLength (back.takeWhile isBlank) := by
  simp only [breaks_eq, mem_breaksIn, Nat.zero_add, atTopLevel_iff, tally, and_assoc]

theorem pairwise_breaksIn (t : Tally) (position : ℕ) (text : List Char) :
    (breaksIn t position text).Pairwise fun a b => a.1 < b.1 := by
  induction text generalizing t position with
  | nil => simp [breaksIn_nil]
  | cons c text ih =>
    by_cases htop : c = ',' ∧ t.quoted = false ∧ t.unclosed = 0
    · obtain ⟨quoted, strays, unclosed⟩ := t
      obtain ⟨rfl, rfl, rfl⟩ := htop
      rw [breaksIn_comma]
      refine List.pairwise_cons.2 ⟨fun b hb => ?_, ih _ _⟩
      obtain ⟨front, back, -, -, -, hcomma, -⟩ := mem_breaksIn.1 (show (b.1, b.2) ∈ _ from hb)
      change position < b.1
      omega
    · rw [breaksIn_step htop]
      exact ih _ _

/-- The white space behind a comma ends in front of any other comma. -/
theorem breaks_le {comma stop : ℕ} (h : (comma, stop) ∈ breaks text) (htext : text = front ++ ',' :: back)
    (hlt : comma < byteLength front) : stop ≤ byteLength front := by
  obtain ⟨first, rest, rfl, -, rfl, rfl⟩ := mem_breaks.1 h
  obtain ⟨between, rfl, hrest⟩ := exists_append_of_le htext hlt.le
  cases between with
  | nil => simp at hlt
  | cons c between =>
    rw [List.cons_append, List.cons.injEq] at hrest
    obtain ⟨rfl, rfl⟩ := hrest
    have hgap := congrArg byteLength (List.takeWhile_append_dropWhile (p := isBlank) (l := between))
    rw [byteLength_append] at hgap
    rw [Scan.takeWhile_append_of_neg (by decide), Positions.byteLength_comma]
    omega

theorem map_breaksFrom (comma : ℕ) (pieces : List (List Char)) :
    (breaksFrom comma pieces).map Prod.fst = Positions.commasBefore comma pieces := by
  induction pieces generalizing comma with
  | nil => rfl
  | cons piece pieces ih => rw [breaksFrom, List.map_cons, ih, Positions.commasBefore]

theorem map_breaks (text : List Char) : (breaks text).map Prod.fst = Positions.commas text := by
  have hcommas := Positions.commasFrom_bytes ⟨false, 0⟩ 0 text
  rw [Nat.zero_add] at hcommas
  rw [breaks, map_breaksFrom, Positions.commas, hcommas]

theorem split_of_undivided (h : Undivided text) : split text = [trim text] := by
  have hnone : (cut false 0 text).2 = [] := by
    cases hcut : (cut false 0 text).2 with
    | nil => rfl
    | cons piece pieces =>
      have hmem : (byteLength (cut false 0 text).1, byteLength (cut false 0 text).1 + 1 +
          byteLength (piece.takeWhile isBlank)) ∈ breaks text := by
        rw [breaks, hcut]
        exact List.mem_cons_self
      obtain ⟨front, back, rfl, htop, -, -⟩ := mem_breaks.1 hmem
      exact absurd (by simpa using htop) (h front.length (by simp) (by simp))
  have htext := text_cut ⟨false, 0⟩ text
  rw [hnone, List.flatMap_nil, List.append_nil] at htext
  rw [split, pieces, hnone, htext]
  rfl

theorem split_blank (h : isBlank c = true) (text : List Char) : split (c :: text) = split text := by
  have hinert : Inert [c] := inert_of_isBlank (by simp [h])
  have hcut := cut_append (hinert.walk true ⟨false, 0⟩) text
  rw [List.singleton_append] at hcut
  have htrim := trim_around (show [c].all isBlank = true by simp [h]) (show [].all isBlank = true from rfl)
    (cut false 0 text).1
  rw [List.append_nil, List.singleton_append] at htrim
  simp only [split, pieces, hcut, prepend, List.singleton_append, List.map_cons, htrim]

theorem split_intercalate {args : List (List Char)} (hne : args ≠ [])
    (h : ∀ arg ∈ args, trim arg = arg ∧ Undivided arg ∧ AtTopLevel arg) :
    split (List.intercalate ", ".toList args) = args := by
  induction args with
  | nil => exact absurd rfl hne
  | cons arg args ih =>
    obtain ⟨⟨htrim, hundivided, htop⟩, hargs⟩ := List.forall_mem_cons.1 h
    have hfirst : split arg = [arg] := by rw [split_of_undivided hundivided, htrim]
    cases args with
    | nil => rw [List.intercalate_singleton, hfirst]
    | cons next args =>
      have hjoin : List.intercalate ", ".toList (arg :: next :: args) =
          arg ++ ',' :: ' ' :: List.intercalate ", ".toList (next :: args) := by
        rw [List.intercalate_cons_cons, List.append_assoc]
        rfl
      rw [hjoin, split_comma htop, split_blank (by decide), ih (List.cons_ne_nil _ _) hargs, hfirst]
      rfl

/-- Arguments that are joined by commas are found again, if each of them is trimmed, holds no comma at
the top level and ends at the top level. Behind any text that ends at the top level a comma parts the
arguments in front of it from those behind it. -/
theorem split_join :
    (∀ args : List (List Char), args ≠ [] →
      (∀ arg ∈ args, trim arg = arg ∧ Undivided arg ∧ AtTopLevel arg) →
        split (List.intercalate ", ".toList args) = args) ∧
    ∀ front back, AtTopLevel front → split (front ++ ',' :: back) = split front ++ split back :=
  ⟨fun _ hne h => split_intercalate hne h, fun _ back h => split_comma h back⟩

/-- Also an argument that is empty, one that ends with a quote and one that closes too much. -/
theorem split_join_empty_quoted_stray :
    (∀ arg ∈ ["f(a, b)".toList, [], "'x,''y)'".toList, "a)".toList],
      trim arg = arg ∧ Undivided arg ∧ AtTopLevel arg) ∧
    split "f(a, b), , 'x,''y)', a)".toList =
      ["f(a, b)".toList, [], "'x,''y)'".toList, "a)".toList] :=
  have h : ∀ arg ∈ ["f(a, b)".toList, [], "'x,''y)'".toList, "a)".toList],
      trim arg = arg ∧ Undivided arg ∧ AtTopLevel arg := by decide +kernel
  ⟨h, split_join.1 _ (List.cons_ne_nil _ _) h⟩

end Arguments

/-- Behind its opening quote a literal ends at the first place where a reader is outside of it: an odd
number of quotes stands in front, and no quote follows with which the last of them would be a pair. -/
theorem Literal.split_first (rest : List Char) :
    (((split rest).1.count '\'' % 2 = 1 ∧ (split rest).2.head? ≠ some '\'') ∨ (split rest).2 = []) ∧
      ∀ inner back, rest = inner ++ back →
        (inner.count '\'' % 2 = 1 ∧ back.head? ≠ some '\'') ∨ back = [] →
          (split rest).1 <+: inner := by
  fun_induction split rest with
  | case1 => exact ⟨.inr rfl, fun inner back _ _ => List.nil_prefix⟩
  | case2 rest ih =>
    obtain ⟨hend, hleast⟩ := ih
    refine ⟨hend.imp_left fun h => ⟨by simp only [List.count_cons_self]; omega, h.2⟩, ?_⟩
    intro inner back he hb
    rcases inner with _ | ⟨c, _ | ⟨d, inner⟩⟩
    · rw [List.nil_append] at he
      simp [← he] at hb
    · obtain ⟨rfl, rfl⟩ := List.cons.inj he
      simp at hb
    · simp only [List.cons_append, List.cons.injEq] at he
      obtain ⟨rfl, rfl, rfl⟩ := he
      have hinner := hleast inner back rfl
        (hb.imp_left fun h => ⟨by have := h.1; simp only [List.count_cons_self] at this; omega, h.2⟩)
      exact List.cons_prefix_cons.2 ⟨rfl, List.cons_prefix_cons.2 ⟨rfl, hinner⟩⟩
  | case3 rest hne =>
    refine ⟨.inl ⟨rfl, ?_⟩, ?_⟩
    · intro he
      obtain ⟨tail, rfl⟩ := List.head?_eq_some_iff.1 he
      exact hne tail rfl rfl
    · intro inner back he hb
      cases inner with
      | nil =>
        rw [List.nil_append] at he
        simp [← he] at hb
      | cons c inner =>
        obtain ⟨rfl, rfl⟩ := List.cons.inj he
        exact List.cons_prefix_cons.2 ⟨rfl, List.nil_prefix⟩
  | case4 c rest hne hc ih =>
    obtain ⟨hend, hleast⟩ := ih
    refine ⟨by rwa [List.count_cons_of_ne hc], ?_⟩
    intro inner back he hb
    cases inner with
    | nil =>
      rw [List.nil_append] at he
      simp [← he] at hb
    | cons d inner =>
      obtain ⟨rfl, rfl⟩ := List.cons.inj he
      rw [List.count_cons_of_ne hc] at hb
      exact List.cons_prefix_cons.2 ⟨rfl, hleast inner back rfl hb⟩

theorem isLeast_endFrom (h : Unquoted front) (rest : List Char) :
    IsLeast {stop | ∃ inner back, rest = inner ++ back ∧ stop = byteLength (front ++ '\'' :: inner) ∧
        ((Unquoted (front ++ '\'' :: inner) ∧ back.head? ≠ some '\'') ∨ back = [])}
      (Literal.endFrom (front ++ '\'' :: rest) (byteLength front)) := by
  have hodd : ∀ inner : List Char, Unquoted (front ++ '\'' :: inner) ↔ inner.count '\'' % 2 = 1 := by
    intro inner
    unfold Unquoted at h ⊢
    rw [List.count_append, List.count_cons_self]
    omega
  obtain ⟨hend, hleast⟩ := Literal.split_first rest
  rw [← Positions.skipLiteral_eq_endFrom, Positions.skipLiteral_eq]
  simp only [hodd]
  refine ⟨⟨_, _, (Literal.split_append rest).symm, rfl, hend⟩, ?_⟩
  rintro stop ⟨inner, back, he, rfl, hb⟩
  obtain ⟨more, rfl⟩ := hleast inner back he hb
  simp only [byteLength_append, byteLength_cons]
  omega

/-- What the readers of a text find is what its quotes and parentheses say. -/
structure ReadersAgree (text : List Char) : Prop where
  /-- Behind any part of the text a reader of commas is inside a literal if an odd number of quotes is
  in that part, and as deep in parentheses as the others among them say. -/
  state : ∀ front back, text = front ++ back → Arguments.cut false 0 text =
    Arguments.resume (Arguments.cut false 0 front).1 (Arguments.cut false 0 front).2
      (Arguments.cut (decide (front.count '\'' % 2 = 1)) (depthBehind front) back)
  /-- The breaks are the commas at the top level with the end of all the white space behind them. -/
  commas : ∀ comma stop, (comma, stop) ∈ Arguments.breaks text ↔
    ∃ front gap back, text = front ++ ',' :: (gap ++ back) ∧ AtTopLevel front ∧
      gap.all isBlank = true ∧ back.head?.any isBlank = false ∧
      comma = byteLength front ∧ stop = byteLength (front ++ ',' :: gap)
  increasing : (Arguments.breaks text).Pairwise fun a b => a.1 < b.1
  /-- No white space goes on behind another comma. -/
  apart : ∀ comma stop, (comma, stop) ∈ Arguments.breaks text → ∀ front back,
    text = front ++ ',' :: back → comma < byteLength front → stop ≤ byteLength front
  /-- The arguments are what is left of the slices between these commas when they are trimmed. -/
  arguments : Positions.slicesFrom text 0 ((Arguments.breaks text).map Prod.fst) =
    some (Arguments.split text)
  /-- A literal ends at the first place behind its opening quote that is outside of literals and has no
  quote behind it, or at the end of the text. -/
  literals : ∀ front rest, text = front ++ '\'' :: rest → Unquoted front →
    IsLeast {stop | ∃ inner back, rest = inner ++ back ∧ stop = byteLength (front ++ '\'' :: inner) ∧
        ((Unquoted (front ++ '\'' :: inner) ∧ back.head? ≠ some '\'') ∨ back = [])}
      (Literal.endFrom text (byteLength front))

/-- In every text the readers of arguments, commas and literals agree on what is at the top level. -/
theorem readers_agree (text : List Char) : ReadersAgree text where
  state := by
    rintro front back rfl
    rw [← tally_quoted, ← tally_unclosed]
    exact Arguments.cut_append_tally front back
  commas comma stop := by
    rw [Arguments.mem_breaks]
    constructor
    · rintro ⟨front, back, rfl, htop, rfl, rfl⟩
      refine ⟨front, gap back 0, trimStart back, ?_, htop, all_gap back 0, ?_, rfl, ?_⟩
      · rw [gap_append_trimStart]
      · have hhead := List.head?_dropWhile_not isBlank back
        rw [trimStart]
        cases hd : (back.dropWhile isBlank).head? with
        | none => rfl
        | some c => simpa [hd] using hhead
      · rw [Positions.byteLength_comma]
        rfl
    · rintro ⟨front, gap, back, rfl, htop, hgap, hback, rfl, rfl⟩
      refine ⟨front, gap ++ back, rfl, htop, rfl, ?_⟩
      have hrun : (gap ++ back).takeWhile isBlank = gap := by
        rw [List.takeWhile_append_of_pos (by simpa using hgap)]
        cases back with
        | nil => simp
        | cons c back => rw [List.takeWhile_cons_of_neg (by simpa using hback), List.append_nil]
      rw [hrun, Positions.byteLength_comma]
  increasing := by
    rw [Arguments.breaks_eq]
    exact Arguments.pairwise_breaksIn _ _ _
  apart comma stop h front back htext hlt := Arguments.breaks_le h htext hlt
  arguments := by
    rw [Arguments.map_breaks]
    exact Positions.splitArguments_eq text
  literals := by
    rintro front rest rfl h
    exact isLeast_endFrom h rest

end ReportMigration.Sql
