import ReportMigration.Proofs.Sql.CharCall
import ReportMigration.Proofs.Sql.Replacement
import ReportMigration.Sql.Fragment

/-!
# Parentheses without a partner

The parentheses outside literals come in pairs that cancel each other, and some are left: first
closing ones, then opening ones. No standard rule changes how many are left of each, nor whether the
last literal is closed.
-/

namespace ReportMigration.Sql

open Text Scan

/-- The parentheses in a text that an even number of quotes precedes, given how many quotes stand in
front of the text. -/
def parentheses : Nat → List Char → List Char
  | _, [] => []
  | quotes, c :: text =>
    if c = '\'' then parentheses (quotes + 1) text
    else if quotes % 2 = 0 ∧ (c = '(' ∨ c = ')') then c :: parentheses quotes text
    else parentheses quotes text

/-- A parenthesis and the one that closes it at once cancel each other. -/
inductive Cancels : List Char → List Char → Prop
  | pair (front back : List Char) : Cancels (front ++ '(' :: ')' :: back) (front ++ back)

/-- When pairs are cancelled, these many closing and opening parentheses are left. -/
def Reduces (text : List Char) (strays unclosed : Nat) : Prop :=
  Relation.ReflTransGen Cancels (parentheses 0 text)
    (List.replicate strays ')' ++ List.replicate unclosed '(')

/-- The same parentheses are left, and as many quotes, up to pairs. -/
structure SameBalance (text next : List Char) : Prop where
  reduces : ∀ strays unclosed, Reduces text strays unclosed ↔ Reduces next strays unclosed
  quotes : text.count '\'' % 2 = next.count '\'' % 2

/-- What a reader knows of a text: whether it ends inside a literal, and how many parentheses closed
nothing and how many are open. -/
structure Tally where
  quoted : Bool
  strays : Nat
  unclosed : Nat
deriving DecidableEq, Repr

namespace Tally

def step (t : Tally) (c : Char) : Tally :=
  if c = '\'' then { t with quoted := !t.quoted }
  else if t.quoted then t
  else if c = '(' then { t with unclosed := t.unclosed + 1 }
  else if c = ')' then
    if t.unclosed = 0 then { t with strays := t.strays + 1 }
    else { t with unclosed := t.unclosed - 1 }
  else t

def read (t : Tally) (text : List Char) : Tally :=
  text.foldl step t

@[simp] theorem read_nil (t : Tally) : t.read [] = t := rfl

theorem read_cons (t : Tally) (c : Char) (text : List Char) :
    t.read (c :: text) = (t.step c).read text := rfl

theorem read_append (t : Tally) (x y : List Char) : t.read (x ++ y) = (t.read x).read y :=
  List.foldl_append

theorem step_quoted (t : Tally) (c : Char) : (t.step c).quoted = (t.quoted != (c == '\'')) := by
  unfold step
  grind

theorem read_quoted (t : Tally) (text : List Char) :
    (t.read text).quoted = (t.quoted != decide (text.count '\'' % 2 = 1)) := by
  induction text generalizing t with
  | nil => simp
  | cons c text ih =>
    rw [read_cons, ih, step_quoted]
    by_cases hc : c = '\''
    · rcases Nat.mod_two_eq_zero_or_one (text.count '\'') with he | he <;>
        simp [hc, Nat.add_mod, he]
    · have hb : (c == '\'') = false := by simpa using hc
      rw [List.count_cons_of_ne hc, hb, Bool.bne_false]

theorem read_of_walk {p q : Place} {text : List Char} (h : p.walk false text = some q)
    (strays outer : Nat) : (Tally.mk p.quoted strays (p.depth + outer)).read text =
      ⟨q.quoted, strays, q.depth + outer⟩ := by
  induction text generalizing p with
  | nil =>
    obtain rfl : p = q := by simpa using h
    rfl
  | cons c text ih =>
    rw [Place.walk_cons] at h
    obtain ⟨r, hr, hq⟩ := Option.bind_eq_some_iff.1 h
    have hstep : (Tally.mk p.quoted strays (p.depth + outer)).step c =
        ⟨r.quoted, strays, r.depth + outer⟩ := by
      obtain ⟨quoted, depth⟩ := p
      unfold Place.step at hr
      unfold step
      grind
    rw [read_cons, hstep, ih hq]

theorem read_closed {text : List Char} (h : Closed text) {t : Tally} (ht : t.quoted = false) :
    t.read text = t := by
  have hread := read_of_walk h t.strays t.unclosed
  simp only [Nat.zero_add] at hread
  obtain ⟨quoted, strays, unclosed⟩ := t
  subst ht
  exact hread

theorem read_neutral {text : List Char} (h : Neutral text) (t : Tally) : t.read text = t := by
  have hread := read_of_walk (h false ⟨t.quoted, 0⟩) t.strays t.unclosed
  simpa using hread

theorem read_parentheses (t : Tally) (quotes : Nat) (hq : t.quoted = decide (quotes % 2 = 1))
    (text : List Char) :
    ({ t with quoted := false } : Tally).read (parentheses quotes text) =
      { t.read text with quoted := false } := by
  induction text generalizing t quotes with
  | nil => rfl
  | cons c text ih =>
    have hnext : (t.step c).quoted = decide ((if c = '\'' then quotes + 1 else quotes) % 2 = 1) := by
      rw [step_quoted, hq]
      by_cases hc : c = '\''
      · rcases Nat.mod_two_eq_zero_or_one quotes with he | he <;> simp [hc, Nat.add_mod, he]
      · have hb : (c == '\'') = false := by simpa using hc
        rw [hb, Bool.bne_false, if_neg hc]
    rw [read_cons, parentheses]
    by_cases hc : c = '\''
    · rw [if_pos hc] at hnext ⊢
      rw [← ih _ _ hnext, hc]
      rfl
    · rw [if_neg hc] at hnext ⊢
      rw [← ih _ _ hnext]
      by_cases hp : quotes % 2 = 0 ∧ (c = '(' ∨ c = ')')
      · rw [if_pos hp, read_cons]
        have hopen : t.quoted = false := by simp [hq, hp.1]
        congr 1
        obtain ⟨quoted, strays, unclosed⟩ := t
        subst hopen
        rcases hp.2 with rfl | rfl
        · rfl
        · unfold step
          grind
      · rw [if_neg hp]
        have hkeep : ({ t with quoted := false } : Tally) = { t.step c with quoted := false } := by
          unfold step
          by_cases hopen : t.quoted = true
          · simp [hc, hopen]
          · have heven : quotes % 2 = 0 := by
              rw [hq] at hopen
              simpa using hopen
            have hne : c ≠ '(' ∧ c ≠ ')' := not_or.1 fun h => hp ⟨heven, h⟩
            simp [hc, hopen, hne]
        exact congrArg (fun s : Tally => s.read (parentheses quotes text)) hkeep

theorem read_cancels {x y : List Char} (h : Cancels x y) (t : Tally) : t.read x = t.read y := by
  obtain ⟨front, back⟩ := h
  have hpair : ∀ t : Tally, (t.step '(').step ')' = t := by
    rintro ⟨quoted, strays, unclosed⟩
    cases quoted <;> simp [step]
  rw [read_append, read_append, read_cons, read_cons, hpair]

theorem read_replicate_char {c : Char} {t : ℕ → Tally} (h : ∀ n, (t n).step c = t (n + 1))
    (k n : ℕ) : (t n).read (List.replicate k c) = t (n + k) := by
  induction k generalizing n with
  | zero => rfl
  | succ k ih => rw [List.replicate_succ, read_cons, h, ih, Nat.add_right_comm, Nat.add_assoc]

theorem read_replicate (strays unclosed : Nat) :
    (Tally.mk false 0 0).read (List.replicate strays ')' ++ List.replicate unclosed '(') =
      ⟨false, strays, unclosed⟩ := by
  have hclose := read_replicate_char (t := (⟨false, ·, 0⟩)) (c := ')') (fun _ => rfl) strays 0
  have hopen := read_replicate_char (t := (⟨false, strays, ·⟩)) (c := '(') (fun _ => rfl) unclosed 0
  rw [Nat.zero_add] at hclose hopen
  rw [read_append, hclose, hopen]

theorem isParenthesis_of_mem {quotes : Nat} {text : List Char} {c : Char}
    (h : c ∈ parentheses quotes text) : c = '(' ∨ c = ')' := by
  fun_induction parentheses quotes text with
  | case1 => cases h
  | case2 quotes text ih => exact ih h
  | case3 quotes d text hd hp ih =>
    rcases List.mem_cons.1 h with rfl | h
    · exact hp.2
    · exact ih h
  | case4 quotes d text hd hp ih => exact ih h

/-- Behind the parentheses that are left already, a word of them is cancelled to what is left behind
it. -/
theorem cancels_read (t : Tally) (ht : t.quoted = false) (word : List Char)
    (h : ∀ c ∈ word, c = '(' ∨ c = ')') :
    Relation.ReflTransGen Cancels
      (List.replicate t.strays ')' ++ List.replicate t.unclosed '(' ++ word)
      (List.replicate (t.read word).strays ')' ++ List.replicate (t.read word).unclosed '(') := by
  induction word generalizing t with
  | nil => rw [List.append_nil]; exact .refl
  | cons c word ih =>
    obtain ⟨hc, hword⟩ := List.forall_mem_cons.1 h
    obtain ⟨quoted, strays, unclosed⟩ := t
    subst ht
    rcases hc with rfl | rfl
    · have hstep := ih ⟨false, strays, unclosed + 1⟩ rfl hword
      rw [List.replicate_succ', ← List.append_assoc, List.append_assoc _ ['(']] at hstep
      exact hstep
    · cases unclosed with
      | zero =>
        have hstep := ih ⟨false, strays + 1, 0⟩ rfl hword
        rw [List.replicate_succ', List.replicate_zero, List.append_nil, List.append_assoc] at hstep
        rw [List.replicate_zero, List.append_nil]
        exact hstep
      | succ unclosed =>
        refine .head ?_ (ih ⟨false, strays, unclosed⟩ rfl hword)
        have hpair := Cancels.pair (List.replicate strays ')' ++ List.replicate unclosed '(') word
        rw [List.replicate_succ']
        simpa using hpair

theorem reduces_iff {text : List Char} {strays unclosed : Nat} :
    Reduces text strays unclosed ↔ ((Tally.mk false 0 0).read text).strays = strays ∧
      ((Tally.mk false 0 0).read text).unclosed = unclosed := by
  have hword := read_parentheses (Tally.mk false 0 0) 0 rfl text
  constructor
  · intro h
    have hread : ∀ {x y}, Relation.ReflTransGen Cancels x y →
        (Tally.mk false 0 0).read x = (Tally.mk false 0 0).read y := by
      intro x y h
      induction h with
      | refl => rfl
      | tail _ hc ih => exact ih.trans (read_cancels hc _)
    have hread := hread h
    rw [hword, read_replicate] at hread
    exact ⟨congrArg Tally.strays hread, congrArg Tally.unclosed hread⟩
  · rintro ⟨rfl, rfl⟩
    have hsteps := cancels_read (Tally.mk false 0 0) rfl (parentheses 0 text)
      (fun c hc => isParenthesis_of_mem hc)
    rw [hword] at hsteps
    exact hsteps

end Tally

theorem sameBalance_of_read {text next : List Char}
    (h : (Tally.mk false 0 0).read text = (Tally.mk false 0 0).read next) :
    SameBalance text next where
  reduces strays unclosed := by rw [Tally.reduces_iff, Tally.reduces_iff, h]
  quotes := by
    have hquoted := congrArg Tally.quoted h
    rw [Tally.read_quoted, Tally.read_quoted] at hquoted
    simp only [Bool.false_bne, decide_eq_decide] at hquoted
    omega

theorem CallRule.Replaces.read {rule : CallRule} (ht : Tidy rule.transform)
    (hf : Named rule.function) {text next : List Char} (h : rule.Replaces text next) :
    (Tally.mk false 0 0).read next = (Tally.mk false 0 0).read text := by
  obtain @⟨front, o, inside, text, hfront, -, ho, hinside, hsome, back⟩ := h
  have hargs : ∀ arg ∈ Arguments.split inside, Item arg :=
    fun arg ha => Arguments.item_of_mem_split hinside ha
  have hcall : Closed (o ++ (inside ++ [')'])) := (plug_call hf ho hinside).item.closed
  have hopen : ((Tally.mk false 0 0).read front).quoted = false := by
    unfold Unquoted at hfront
    simp [Tally.read_quoted, hfront]
  have hsplit : o ++ (inside ++ ')' :: back) = (o ++ (inside ++ [')'])) ++ back := by simp
  rw [hsplit]
  simp only [Tally.read_append _ front, Tally.read_append _ _ back]
  rw [Tally.read_closed (ht.item hargs hsome).closed hopen, Tally.read_closed hcall hopen]

theorem CallRule.read_output {rule : CallRule} (ht : Tidy rule.transform)
    (hf : Named rule.function) (text : List Char) :
    (Tally.mk false 0 0).read (rule.output text) = (Tally.mk false 0 0).read text :=
  (rewrites_output ht hf text).invariant
    (P := fun t => (Tally.mk false 0 0).read t = (Tally.mk false 0 0).read text)
    (fun hstep heq => (hstep.read ht hf).trans heq) rfl

/-- A pattern that reads text without parentheses and quotes, and means neutral text, is read like
what it leaves, also inside literals. -/
theorem read_substitute {p : Scan (List Char)}
    (hp : Yields p fun meaning hit => Inert hit ∧ Neutral meaning) (t : Tally) (text : List Char) :
    t.read (p.substitute text) = t.read text := by
  have hsegments : ∀ (segments : List (Segment (List Char))) (t : Tally),
      (∀ hit meaning, .hit hit meaning ∈ segments → Inert hit ∧ Neutral meaning) →
      t.read (segments.flatMap Segment.replaced) = t.read (segments.flatMap Segment.text) := by
    intro segments
    induction segments with
    | nil => exact fun t _ => rfl
    | cons segment segments ih =>
      intro t h
      have hone : t.read segment.replaced = t.read segment.text := by
        cases segment with
        | plain c => rfl
        | hit hit meaning =>
          obtain ⟨hhit, hmeaning⟩ := h hit meaning List.mem_cons_self
          exact (Tally.read_neutral hmeaning t).trans (Tally.read_neutral hhit.neutral t).symm
      rw [List.flatMap_cons, List.flatMap_cons, Tally.read_append, Tally.read_append, hone]
      exact ih _ fun hit meaning hm => h hit meaning (List.mem_cons_of_mem _ hm)
  rw [substitute, hsegments (p.segments text) t fun hit meaning hm =>
    hp.mem_segmentsFrom 0 none text hm, segments_text]

theorem yields_isolationHint_neutral :
    Yields isolationHint fun meaning hit => Inert hit ∧ Neutral meaning := by
  intro c a n h
  refine ⟨Avoids.inert (yields_isolationHint c a n h), ?_⟩
  rcases meaning_isolationHint c a n h with rfl | rfl
  · exact Inert.neutral (by decide)
  · exact Inert.neutral (by decide)

theorem Phrasal.yields_neutral {p : Scan (List Char)} (h : Phrasal p) :
    Yields p fun meaning hit => Inert hit ∧ Neutral meaning :=
  h.phrase.mono fun _ _ hp => ⟨hp.inert, hp.neutral⟩

theorem tidy_standardCalls : ∀ rule ∈ standardCalls, Tidy rule.transform ∧ Named rule.function := by
  intro rule hrule
  simp only [standardCalls, List.mem_cons, List.not_mem_nil, or_false] at hrule
  rcases hrule with rfl | rfl | rfl | rfl | rfl | rfl | rfl | rfl | rfl
  · exact ⟨steady_dateCast.tidy, steady_dateCast.named⟩
  · exact ⟨steady_timestampCast.tidy, steady_timestampCast.named⟩
  · exact ⟨steady_integerCast.tidy, steady_integerCast.named⟩
  · exact ⟨steady_bigintCast.tidy, steady_bigintCast.named⟩
  · exact ⟨steady_doubleCast.tidy, steady_doubleCast.named⟩
  · exact ⟨steady_decimalCast.tidy, steady_decimalCast.named⟩
  · exact ⟨steady_varcharFormat.tidy, steady_varcharFormat.named⟩
  · exact ⟨tidy_charOfDate, by decide⟩
  · exact ⟨steady_charCast.tidy, steady_charCast.named⟩

theorem read_standard {rule : Rule} (h : rule ∈ RuleSet.standard.rules) (text : List Char) :
    (Tally.mk false 0 0).read (rule.output text) = (Tally.mk false 0 0).read text := by
  rcases List.mem_append.1 h with h | h
  · obtain ⟨pattern, hpattern, rfl⟩ := List.mem_map.1 h
    rw [Rule.output_pattern]
    refine read_substitute ?_ _ text
    simp only [standardPatterns, List.mem_cons, List.not_mem_nil, or_false] at hpattern
    rcases hpattern with rfl | rfl | rfl | rfl
    · exact yields_isolationHint_neutral
    · exact phrasal_signFoldedOffset.yields_neutral
    · exact phrasal_dateOffset.yields_neutral
    · exact phrasal_currentTimestamp.yields_neutral
  · obtain ⟨call, hcall, rfl⟩ := List.mem_map.1 h
    obtain ⟨htidy, hnamed⟩ := tidy_standardCalls call hcall
    rw [Rule.output_call hnamed]
    exact CallRule.read_output htidy hnamed text

theorem read_applyStandard (text : List Char) :
    (Tally.mk false 0 0).read (applyStandard text) = (Tally.mk false 0 0).read text := by
  have hrules : ∀ (rules : List Rule) (text : List Char),
      (∀ rule ∈ rules, rule ∈ RuleSet.standard.rules) →
      (Tally.mk false 0 0).read (rewriteBy rules text) = (Tally.mk false 0 0).read text := by
    intro rules
    induction rules with
    | nil => exact fun text _ => rfl
    | cons rule rules ih =>
      intro text h
      obtain ⟨hrule, hrules⟩ := List.forall_mem_cons.1 h
      rw [rewriteBy_cons, ih _ hrules, read_standard hrule]
  rw [applyStandard, RuleSet.text_convert]
  exact hrules _ text fun _ h => h

/-- Of the parentheses of a text one number of closing and one of opening ones is left when pairs
are cancelled. Every standard rule leaves the same, and so do all of them in their order, and the
literals are closed as before. -/
theorem balance_standard :
    (∀ text, ∃! left : Nat × Nat, Reduces text left.1 left.2) ∧
      (∀ rule ∈ RuleSet.standard.rules, ∀ text, SameBalance text ((rule.apply text).getD text)) ∧
      (∀ text, SameBalance text (applyStandard text)) ∧
      ∀ text, Reduces text 0 0 → Unquoted text →
        Reduces (applyStandard text) 0 0 ∧ Unquoted (applyStandard text) := by
  have hwhole : ∀ text, SameBalance text (applyStandard text) :=
    fun text => sameBalance_of_read (read_applyStandard text).symm
  refine ⟨fun text => ?_, fun rule hrule text => ?_, hwhole, fun text hr hu => ⟨?_, ?_⟩⟩
  · refine ⟨(_, _), Tally.reduces_iff.2 ⟨rfl, rfl⟩, fun left hleft => ?_⟩
    obtain ⟨hs, hc⟩ := Tally.reduces_iff.1 hleft
    exact Prod.ext hs.symm hc.symm
  · exact sameBalance_of_read (read_standard hrule text).symm
  · exact ((hwhole text).reduces 0 0).1 hr
  · exact (hwhole text).quotes.symm.trans hu

end ReportMigration.Sql
