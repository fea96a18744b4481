import ReportMigration.Proofs.Sql.Positions.Calls

/-!
# The openers of a text by their positions

The openers of a function lie one behind the other in a text, whatever its name. With their positions
the loop of `Positions.Calls` leaves the text that a call rule leaves: it passes over the openers that
begin inside a literal, which a call rule reads character by character.
-/

namespace ReportMigration.Sql.Positions

open Text CallRule Scan

variable {α : Type} {rule : CallRule} {s : State} {function : List Char}

/-- The positions of the hits of a text, which begins at a position. -/
def spansFrom : ℕ → List (Segment α) → List (ℕ × ℕ)
  | _, [] => []
  | position, .plain c :: segments => spansFrom (position + c.utf8Size) segments
  | position, .hit text _ :: segments =>
    (position, position + byteLength text) :: spansFrom (position + byteLength text) segments

def openersOf (function text : List Char) : List (ℕ × ℕ) :=
  spansFrom 0 ((opener function).segments text)

theorem spans_spansFrom (front : List Char) (segments : List (Segment α)) :
    Spans (front ++ segments.flatMap Segment.text) (byteLength front)
      (spansFrom (byteLength front) segments) := by
  induction segments generalizing front with
  | nil => trivial
  | cons segment segments ih =>
    have hnext := ih (front ++ segment.text)
    rw [List.append_assoc, ← List.flatMap_cons, byteLength_append] at hnext
    cases segment with
    | plain c => exact hnext.mono (Nat.le_add_right _ _)
    | hit text meaning =>
      refine ⟨le_rfl, Nat.le_add_right _ _, boundary_append _ _, ?_, hnext⟩
      rw [List.flatMap_cons, ← List.append_assoc, ← byteLength_append]
      exact boundary_append _ _

theorem spans_openersOf (function text : List Char) : Spans text 0 (openersOf function text) := by
  have h := spans_spansFrom [] ((opener function).segments text)
  rwa [segments_text] at h

theorem le_of_mem_spansFrom {position : ℕ} {segments : List (Segment α)} {span : ℕ × ℕ}
    (h : span ∈ spansFrom position segments) : position ≤ span.1 := by
  induction segments generalizing position with
  | nil => cases h
  | cons segment segments ih =>
    cases segment with
    | plain c => exact (Nat.le_add_right _ _).trans (ih h)
    | hit text meaning =>
      rcases List.mem_cons.1 h with rfl | h
      · exact le_rfl
      · exact (Nat.le_add_right _ _).trans (ih h)

/-- The text ahead behind a character, and how many characters of it belong to an opener that began
inside a literal. -/
structure Ahead where
  covered : ℕ
  before : Option Char
  text : List Char

namespace Ahead

def segments (function : List Char) (a : Ahead) : List (Segment Unit) :=
  segmentsFrom (opener function) a.covered a.before a.text

/-- The positions of the openers ahead, where the text ahead begins at a position. -/
def spans (function : List Char) (position : ℕ) (a : Ahead) : List (ℕ × ℕ) :=
  spansFrom (position + byteLength (a.text.take a.covered)) (a.segments function)

def settle (rule : CallRule) (a : Ahead) (s : State) : State :=
  (a.segments rule.function).foldl rule.read ((a.text.take a.covered).foldl rule.readChar s)

theorem settle_nil (covered : ℕ) (before : Option Char) :
    (Ahead.mk covered before []).settle rule s = s := by
  simp [settle, segments, segmentsFrom]

theorem spans_nil (covered : ℕ) (before : Option Char) (position : ℕ) :
    (Ahead.mk covered before []).spans function position = [] := by
  simp [spans, segments, segmentsFrom, spansFrom]

theorem le_of_mem_spans {a : Ahead} {position : ℕ} {span : ℕ × ℕ}
    (h : span ∈ a.spans function position) : position ≤ span.1 :=
  (Nat.le_add_right _ _).trans (le_of_mem_spansFrom h)

/-- Inside a literal, inside what is covered and where no opener begins, a character is read on its
own. An opener that begins with it inside a literal is passed over. -/
theorem settle_cons (rule : CallRule) (s : State) (covered : ℕ) (before : Option Char) (c : Char)
    (rest : List Char)
    (h : s.quoted = true ∨ covered ≠ 0 ∨
      ∀ u n, opener rule.function ⟨before, c :: rest⟩ ≠ some (u, n + 1)) (position : ℕ) :
    ∃ covered' passed,
      (Ahead.mk covered before (c :: rest)).settle rule s =
        (Ahead.mk covered' (some c) rest).settle rule (rule.readChar s c) ∧
      (Ahead.mk covered before (c :: rest)).spans rule.function position =
        passed ++ (Ahead.mk covered' (some c) rest).spans rule.function (position + c.utf8Size) ∧
      (∀ span ∈ passed, span.1 < position + c.utf8Size) ∧ (s.quoted = false → passed = []) := by
  have hpos := c.utf8Size_pos
  cases covered with
  | succ covered =>
    refine ⟨covered, [], ?_, ?_, by simp, fun _ => rfl⟩
    · simp only [settle, segments, segmentsFrom, List.take_succ_cons, List.foldl_cons]
    · simp only [spans, segments, segmentsFrom, List.take_succ_cons, byteLength_cons,
        List.nil_append, Nat.add_assoc]
  | zero =>
    by_cases hit : ∃ u n, opener rule.function ⟨before, c :: rest⟩ = some (u, n + 1)
    · obtain ⟨u, n, hit⟩ := hit
      have hs : s.quoted = true := by
        rcases h with h | h | h
        · exact h
        · exact absurd rfl h
        · exact absurd hit (h u n)
      refine ⟨n, [(position, position + byteLength ((c :: rest).take (n + 1)))], ?_, ?_, ?_, ?_⟩
      · simp only [settle, segments, segmentsFrom, hit, List.foldl_cons, CallRule.read, if_pos hs,
          List.take_succ_cons, List.take_zero, List.foldl_nil]
      · simp only [spans, segments, segmentsFrom, hit, spansFrom, List.take_zero, byteLength_nil,
          Nat.add_zero, List.singleton_append, List.take_succ_cons, byteLength_cons, Nat.add_assoc]
      · simp only [List.mem_singleton, forall_eq]
        omega
      · simp [hs]
    · have hplain : ∀ u n, opener rule.function ⟨before, c :: rest⟩ ≠ some (u, n + 1) :=
        fun u n he => hit ⟨u, n, he⟩
      refine ⟨0, [], ?_, ?_, by simp, fun _ => rfl⟩
      · simp only [settle, segments, segmentsFrom_plain hplain, List.take_zero, List.foldl_nil,
          List.foldl_cons, CallRule.read]
      · simp only [spans, segments, segmentsFrom_plain hplain, spansFrom, List.take_zero,
          byteLength_nil, Nat.add_zero, List.nil_append]

theorem opener_quotes (rest : List Char) (u : Unit) (n : ℕ) :
    opener function ⟨some '\'', '\'' :: rest⟩ ≠ some (u, n) := by
  intro h
  have hboundary := (wordBoundary_bind h).1
  simp [atBoundary] at hboundary

/-- Reading on from one place to another comes to the same state, and the openers ahead are those ahead
of the other place behind some that begin in front of it. -/
structure Passes (rule : CallRule) (a : Ahead) (s : State) (position : ℕ) (a' : Ahead) (s' : State)
    (position' : ℕ) : Prop where
  settle : a.settle rule s = a'.settle rule s'
  spans : ∃ passed, a.spans rule.function position = passed ++ a'.spans rule.function position' ∧
    ∀ span ∈ passed, span.1 < position'

theorem Passes.trans {a a' a'' : Ahead} {s' s'' : State} {position position' position'' : ℕ}
    (h : Passes rule a s position a' s' position')
    (h' : Passes rule a' s' position' a'' s'' position'') (hle : position' ≤ position'') :
    Passes rule a s position a'' s'' position'' := by
  obtain ⟨passed, hspans, hpassed⟩ := h.spans
  obtain ⟨passed', hspans', hpassed'⟩ := h'.spans
  refine ⟨h.settle.trans h'.settle, passed ++ passed', ?_, ?_⟩
  · rw [hspans, hspans', List.append_assoc]
  · rw [List.forall_mem_append]
    exact ⟨fun span hm => (hpassed span hm).trans_le hle, hpassed'⟩

private theorem passes_char (rule : CallRule) (covered : ℕ) (before : Option Char) (c : Char) (rest : List Char)
    (h : s.quoted = true ∨ covered ≠ 0 ∨
      ∀ u n, opener rule.function ⟨before, c :: rest⟩ ≠ some (u, n + 1)) (position : ℕ) :
    ∃ covered', Passes rule ⟨covered, before, c :: rest⟩ s position ⟨covered', some c, rest⟩
      (rule.readChar s c) (position + c.utf8Size) := by
  obtain ⟨covered', passed, hsettle, hspans, hpassed, -⟩ :=
    settle_cons rule s covered before c rest h position
  exact ⟨covered', hsettle, passed, hspans, hpassed⟩

/-- A literal is copied, and the openers that begin in it are passed over. Behind it the state is
outside literals, or the text ends. -/
theorem passes_literal (rule : CallRule) (covered : ℕ) (before : Option Char) (text : List Char)
    (hs : s.quoted = true) (position : ℕ) :
    ∃ covered' quoted, ((Literal.split text).2 = [] ∨ quoted = false) ∧
      Passes rule ⟨covered, before, text⟩ s position ⟨covered', some '\'', (Literal.split text).2⟩
        { s.write (Literal.split text).1 with quoted := quoted }
        (position + byteLength (Literal.split text).1) := by
  fun_induction Literal.split text generalizing covered before s position with
  | case1 =>
    refine ⟨0, true, .inl rfl, ?_, [], ?_, by simp⟩
    · rw [settle_nil, settle_nil, State.write_nil, State.withQuoted_self hs]
    · rw [spans_nil, spans_nil, List.nil_append]
  | case2 rest ih =>
    obtain ⟨covered₁, h₁⟩ := passes_char rule covered before '\'' ('\'' :: rest) (.inl hs)
      position
    obtain ⟨covered₂, h₂⟩ := passes_char (s := rule.readChar s '\'') rule covered₁ (some '\'') '\'' rest
      (.inr (.inr fun u n => opener_quotes rest u (n + 1))) (position + '\''.utf8Size)
    have hwrite : rule.readChar (rule.readChar s '\'') '\'' = s.write ['\'', '\''] := by
      simp [readChar, State.copy, State.write, hs]
    rw [hwrite] at h₂
    obtain ⟨covered₃, quoted, hend, h₃⟩ :=
      ih (s := s.write ['\'', '\'']) covered₂ (some '\'') hs (position + '\''.utf8Size + '\''.utf8Size)
    refine ⟨covered₃, quoted, hend, ?_⟩
    have h := (h₁.trans h₂ (by omega)).trans h₃ (by omega)
    rwa [← State.write_append, Nat.add_assoc, Nat.add_assoc, ← byteLength_cons, ← byteLength_cons] at h
  | case3 rest hne =>
    obtain ⟨covered', h⟩ := passes_char rule covered before '\'' rest (.inl hs) position
    have hwrite : rule.readChar s '\'' = { s.write ['\''] with quoted := false } := by
      simp [readChar, State.copy, State.write, hs]
    rw [hwrite] at h
    exact ⟨covered', false, .inr rfl, h⟩
  | case4 c rest hne hc ih =>
    obtain ⟨covered₁, h₁⟩ := passes_char rule covered before c rest (.inl hs) position
    have hcopy : rule.readChar s c = s.copy c := by rw [readChar, if_neg hc, if_pos hs]
    rw [hcopy] at h₁
    obtain ⟨covered₂, quoted, hend, h₂⟩ :=
      ih (s := s.copy c) covered₁ (some c) hs (position + c.utf8Size)
    refine ⟨covered₂, quoted, hend, ?_⟩
    have h := h₁.trans h₂ (by omega)
    rwa [← State.write_cons, Nat.add_assoc, ← byteLength_cons] at h

end Ahead

variable {sql : List Char}

/-- The loop has the openers ahead in front of it, behind some that begin before its position. -/
def Faces (function : List Char) (m : Progress) (a : Ahead) : Prop :=
  ∃ passed, m.openers = passed ++ a.spans function m.position ∧ ∀ span ∈ passed, span.1 < m.position

theorem Faces.pending {m : Progress} {a : Ahead} (h : Faces function m a) :
    m.pending = a.spans function m.position := by
  obtain ⟨passed, hopeners, hpassed⟩ := h
  rw [Progress.pending, hopeners, List.dropWhile_append_of_pos (by simpa using hpassed)]
  cases hspans : a.spans function m.position with
  | nil => rfl
  | cons span spans =>
    have hle := Ahead.le_of_mem_spans (hspans ▸ List.mem_cons_self)
    rw [List.dropWhile_cons_of_neg (by simpa using hle)]

/-- The loop is in front of what is ahead and tracks a state, which is outside literals where the text
goes on. -/
structure Reads (function sql : List Char) (m : Progress) (a : Ahead) (s : State) : Prop where
  tracks : Tracks m s
  position : ∃ front, sql = front ++ a.text ∧ m.position = byteLength front
  outside : a.text = [] ∨ s.quoted = false
  faces : Faces function m a

theorem Lands.reads {step : Option Progress} {front t : List Char} {openers : List (ℕ × ℕ)} {a : Ahead}
    {q : Bool} (h : Lands step s (byteLength (front ++ t)) openers)
    (hsql : sql = front ++ (t ++ a.text)) (houtside : a.text = [] ∨ q = false)
    {passed : List (ℕ × ℕ)} (hopeners : openers = passed ++ a.spans function (byteLength (front ++ t)))
    (hpassed : ∀ span ∈ passed, span.1 < byteLength (front ++ t)) :
    ∃ m, step = some m ∧ Reads function sql m a { s with quoted := q } := by
  obtain ⟨m, rfl, ht, hposition, rfl⟩ := h
  refine ⟨m, rfl, ⟨ht.out, ht.stack, ht.changed⟩, ⟨front ++ t, ?_, hposition⟩, houtside, passed, ?_, ?_⟩
  · rw [hsql, List.append_assoc]
  · rw [hopeners, hposition]
  · rwa [hposition]

/-- A turn of the loop leaves what the call rule settles what is ahead to. -/
def Advances (rule : CallRule) (sql : List Char) (m : Progress) (a : Ahead) (s : State) : Prop :=
  ∃ next a' s', m.turn rule sql = some next ∧ Reads rule.function sql next a' s' ∧
    a.settle rule s = a'.settle rule s'

private theorem Reads.advances_opener {m : Progress} {before : Option Char} {c : Char}
    {rest : List Char} {u : Unit} {n : ℕ} (h : Reads rule.function sql m ⟨0, before, c :: rest⟩ s)
    (hit : opener rule.function ⟨before, c :: rest⟩ = some (u, n + 1)) :
    Advances rule sql m ⟨0, before, c :: rest⟩ s := by
  obtain ⟨ht, ⟨front, hsql, hposition⟩, houtside, hfaces⟩ := h
  have hs : s.quoted = false := houtside.resolve_left (List.cons_ne_nil c rest)
  have htake : sql = front ++ ((c :: rest).take (n + 1) ++ rest.drop n) := by
    rw [hsql, ← List.drop_succ_cons, List.take_append_drop]
  have hpending := hfaces.pending
  have hspans : (Ahead.mk 0 before (c :: rest)).spans rule.function m.position =
      (m.position, m.position + byteLength ((c :: rest).take (n + 1))) ::
        (Ahead.mk 0 ((c :: rest).take (n + 1)).getLast? (rest.drop n)).spans rule.function
          (m.position + byteLength ((c :: rest).take (n + 1))) := by
    simp only [Ahead.spans, Ahead.segments, segmentsFrom_hit hit, spansFrom, List.take_zero,
      byteLength_nil, Nat.add_zero]
  rw [hspans, hposition, ← byteLength_append] at hpending
  obtain ⟨next, hnext, hreads⟩ := (lands_turn_opener rule ht htake hposition hpending).reads
    (a := ⟨0, _, rest.drop n⟩) (q := false) htake (.inr rfl) (List.nil_append _).symm (by simp)
  refine ⟨next, _, _, hnext, hreads, ?_⟩
  simp only [Ahead.settle, Ahead.segments, segmentsFrom_hit hit, List.take_zero, List.foldl_nil,
    List.foldl_cons, CallRule.read, hs, Bool.false_eq_true, if_false]
  rw [State.withQuoted_self (s := s.push _) hs]

private theorem Reads.advances_quote {m : Progress} {covered : ℕ} {before : Option Char}
    {rest : List Char} (h : Reads rule.function sql m ⟨covered, before, '\'' :: rest⟩ s)
    (hturn : m.turn rule sql = { m with openers := m.pending }.readByte rule sql) {covered' : ℕ}
    (hsettle : (Ahead.mk covered before ('\'' :: rest)).settle rule s =
      (Ahead.mk covered' (some '\'') rest).settle rule (rule.readChar s '\''))
    (hpending : m.pending =
      (Ahead.mk covered' (some '\'') rest).spans rule.function (m.position + '\''.utf8Size)) :
    Advances rule sql m ⟨covered, before, '\'' :: rest⟩ s := by
  obtain ⟨ht, ⟨front, hsql, hposition⟩, houtside, -⟩ := h
  have hs : s.quoted = false := houtside.resolve_left (List.cons_ne_nil '\'' rest)
  have ht' : Tracks { m with openers := m.pending } s := ⟨ht.out, ht.stack, ht.changed⟩
  have hquote : rule.readChar s '\'' = { s.write ['\''] with quoted := true } := by
    simp [readChar, State.copy, State.write, hs]
  obtain ⟨covered'', q, hend, hsettle', passed, hspans, hpassed⟩ :=
    Ahead.passes_literal rule covered' (some '\'') rest
      (s := { s.write ['\''] with quoted := true }) rfl (m.position + '\''.utf8Size)
  have hlength : m.position + '\''.utf8Size + byteLength (Literal.split rest).1 =
      byteLength (front ++ '\'' :: (Literal.split rest).1) := by
    rw [byteLength_append, byteLength_cons, hposition, Nat.add_assoc]
  have hliteral : sql = front ++ ('\'' :: (Literal.split rest).1 ++ (Literal.split rest).2) := by
    rw [hsql, List.cons_append, Literal.split_append]
  rw [hlength] at hspans hpassed
  obtain ⟨next, hnext, hreads⟩ := (lands_readByte_quote rule ht' hsql hposition).reads
    (a := ⟨covered'', some '\'', _⟩) hliteral hend (hpending.trans hspans) hpassed
  refine ⟨next, _, _, hturn.trans hnext, hreads, ?_⟩
  rw [hsettle, hquote, hsettle']
  simp only [State.write, List.reverse_cons, List.append_assoc, List.singleton_append,
    List.reverse_nil, List.nil_append]

private theorem Reads.advances_char {m : Progress} {covered : ℕ} {before : Option Char} {c : Char}
    {rest : List Char} (h : Reads rule.function sql m ⟨covered, before, c :: rest⟩ s) (hc : c ≠ '\'')
    (hturn : m.turn rule sql = { m with openers := m.pending }.readByte rule sql) {covered' : ℕ}
    (hsettle : (Ahead.mk covered before (c :: rest)).settle rule s =
      (Ahead.mk covered' (some c) rest).settle rule (rule.readChar s c))
    (hpending : m.pending =
      (Ahead.mk covered' (some c) rest).spans rule.function (m.position + c.utf8Size)) :
    Advances rule sql m ⟨covered, before, c :: rest⟩ s := by
  obtain ⟨ht, ⟨front, hsql, hposition⟩, houtside, -⟩ := h
  have hs : s.quoted = false := houtside.resolve_left (List.cons_ne_nil c rest)
  have ht' : Tracks { m with openers := m.pending } s := ⟨ht.out, ht.stack, ht.changed⟩
  have hlength : m.position + c.utf8Size = byteLength (front ++ [c]) := by
    rw [byteLength_append, hposition]
    rfl
  rw [hlength] at hpending
  obtain ⟨next, hnext, hreads⟩ := (lands_readByte rule ht' hsql hposition hc hs).reads
    (a := ⟨covered', some c, rest⟩) (q := false) hsql (.inr rfl)
    (hpending.trans (List.nil_append _).symm) (by simp)
  refine ⟨next, _, _, hturn.trans hnext, hreads, ?_⟩
  rw [hsettle, State.withQuoted_self (readChar_quoted hc hs)]

/-- Where all openers ahead begin behind the next character, a turn reads that character. -/
private theorem turn_of_pending (sql : List Char) {m : Progress} {a : Ahead} {c : Char}
    (hpending : m.pending = a.spans rule.function (m.position + c.utf8Size)) :
    m.turn rule sql = { m with openers := m.pending }.readByte rule sql := by
  refine turn_eq_readByte ?_
  have hsize := c.utf8Size_pos
  rw [hpending]
  cases hfirst : a.spans rule.function (m.position + c.utf8Size) with
  | nil => rfl
  | cons span spans =>
    have hle := Ahead.le_of_mem_spans (hfirst ▸ List.mem_cons_self)
    simp only [List.head?_cons, Option.any_some, decide_eq_false_iff_not]
    omega

/-- In front of more text a turn leaves what the call rule settles it to. -/
theorem Reads.advances {m : Progress} {a : Ahead} (h : Reads rule.function sql m a s)
    (hne : a.text ≠ []) : Advances rule sql m a s := by
  obtain ⟨covered, before, text⟩ := a
  obtain ⟨c, rest, rfl⟩ := List.exists_cons_of_ne_nil hne
  by_cases hit : covered = 0 ∧ ∃ u n, opener rule.function ⟨before, c :: rest⟩ = some (u, n + 1)
  · obtain ⟨rfl, u, n, hit⟩ := hit
    exact h.advances_opener hit
  · have hs : s.quoted = false := h.outside.resolve_left hne
    have hread : s.quoted = true ∨ covered ≠ 0 ∨
        ∀ u n, opener rule.function ⟨before, c :: rest⟩ ≠ some (u, n + 1) := by
      by_cases h0 : covered = 0
      · exact .inr (.inr fun u n he => hit ⟨h0, u, n, he⟩)
      · exact .inr (.inl h0)
    obtain ⟨covered', passed, hsettle, hspans, -, hnil⟩ :=
      Ahead.settle_cons rule s covered before c rest hread m.position
    have hpending := h.faces.pending
    rw [hspans, hnil hs, List.nil_append] at hpending
    have hturn := turn_of_pending sql hpending
    by_cases hc : c = '\''
    · subst hc
      exact h.advances_quote hturn hsettle hpending
    · exact h.advances_char hc hturn hsettle hpending

theorem Reads.runFrom {m : Progress} {a : Ahead} (h : Reads rule.function sql m a s)
    (hsound : Sound sql m) : ∃ last, m.runFrom rule sql = some last ∧ last.out = (a.settle rule s).text ∧
      last.changed = (a.settle rule s).replaced := by
  induction hn : m.left sql using Nat.strongRecOn generalizing m a s with
  | ind n ih =>
    subst hn
    obtain ⟨front, hsql, hposition⟩ := h.position
    by_cases hne : a.text = []
    · have hend : ¬ m.position < byteLength sql := by
        rw [hposition, hsql, hne, List.append_nil]
        exact lt_irrefl _
      obtain ⟨covered, before, text⟩ := a
      obtain rfl : text = [] := hne
      rw [Progress.runFrom, if_neg hend, Ahead.settle_nil]
      exact ⟨m, rfl, h.tracks.out, h.tracks.changed⟩
    · have hmore : m.position < byteLength sql := by
        have hpos := byteLength_pos hne
        rw [hposition, hsql, byteLength_append]
        omega
      obtain ⟨next, a', s', hnext, hreads, hsettle⟩ := h.advances hne
      obtain ⟨next', hnext', hsound', hless⟩ := hsound.turn rule hmore
      obtain rfl : next = next' := Option.some.inj (hnext.symm.trans hnext')
      rw [Progress.runFrom, if_pos hmore, hnext, hsettle]
      dsimp only
      rw [if_pos hless]
      exact ih _ hless hreads hsound' rfl

/-- No call is open, and none was replaced. -/
structure Callless (s : State) : Prop where
  replaced : s.replaced = false
  frames : ∀ f ∈ s.frames, f.opener = none

private theorem Callless.readChar (h : Callless s) (c : Char) : Callless (rule.readChar s c) := by
  obtain ⟨hreplaced, hframes⟩ := h
  unfold CallRule.readChar
  split
  · exact ⟨hreplaced, hframes⟩
  split
  · exact ⟨hreplaced, hframes⟩
  split
  · exact ⟨hreplaced, List.forall_mem_cons.2 ⟨rfl, hframes⟩⟩
  split
  · cases hf : s.frames with
    | nil =>
      rw [close_nil hf]
      exact ⟨hreplaced, hframes⟩
    | cons f frames =>
      rw [hf] at hframes
      obtain ⟨hnone, hrest⟩ := List.forall_mem_cons.1 hframes
      rw [close_cons hf, replacement, hnone]
      exact ⟨by simpa using hreplaced, hrest⟩
  · exact ⟨hreplaced, hframes⟩

private theorem Callless.foldl_read {position : ℕ} {segments : List (Segment Unit)}
    (hspans : spansFrom position segments = []) (h : Callless s) :
    Callless (segments.foldl rule.read s) := by
  induction segments generalizing position s with
  | nil => exact h
  | cons segment segments ih =>
    cases segment with
    | plain c => exact ih hspans (h.readChar c)
    | hit text meaning => cases hspans

/-- By the positions of the openers of its function, the rule comes to what it comes to character by
character, whatever the name of the function. -/
theorem applyAt_openersOf (rule : CallRule) (sql : List Char) :
    applyAt rule (openersOf rule.function sql) sql = some (rule.apply sql) := by
  rw [applyAt, CallRule.apply]
  split
  · next hnone =>
    have hstart : Callless ⟨[], [], false, false⟩ := ⟨rfl, by simp⟩
    have hrun : Callless (rule.run sql) := hstart.foldl_read hnone
    simp only [hrun.replaced, Bool.false_eq_true, if_false]
  · have hreads : Reads rule.function sql ⟨[], [], openersOf rule.function sql, 0, false⟩ ⟨0, none, sql⟩
        ⟨[], [], false, false⟩ :=
      ⟨⟨rfl, rfl, rfl⟩, ⟨[], rfl, rfl⟩, .inr rfl, [], rfl, by simp⟩
    obtain ⟨last, hlast, hout, hchanged⟩ := hreads.runFrom (sound_start (spans_openersOf _ _))
    rw [hlast, Option.map_some, hout, hchanged]
    rfl

end ReportMigration.Sql.Positions
