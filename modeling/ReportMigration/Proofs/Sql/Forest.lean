import ReportMigration.Proofs.Sql.Token

/-!
# Forests of calls

The recursive reading of a text: string literals, closed calls with the forest inside them, closed
plain parentheses and other characters. `Forest` holds what is closed; `Reading` puts the
parentheses that match nothing between such forests. `apply_eq_evaluate` says that a call rule,
which reads a text once with a stack of open parentheses, evaluates the reading from the inside
out.
-/

namespace ReportMigration.Sql

open Text

/-- Text in which every parenthesis outside string literals is closed. -/
inductive Forest where
  | nil
  | literal (text : List Char) (rest : Forest)
  | other (c : Char) (rest : Forest)
  | group (opener : Option (List Char)) (inside rest : Forest)
deriving DecidableEq, Repr

namespace Forest

def tokens : Forest → List Token
  | nil => []
  | literal text rest => .literal text :: rest.tokens
  | other c rest => .other c :: rest.tokens
  | group opener inside rest => .opening opener :: (inside.tokens ++ .closing :: rest.tokens)

def source (f : Forest) : List Char :=
  f.tokens.flatMap Token.source

/-- The text of a forest after a rule: what is inside a call is settled before the call. -/
def evaluate (rule : CallRule) : Forest → List Char
  | nil => []
  | literal text rest => text ++ rest.evaluate rule
  | other c rest => c :: rest.evaluate rule
  | group opener inside rest =>
    rule.settled opener (inside.evaluate rule) ++ rest.evaluate rule

/-- The number of calls that a rule replaces in a forest. -/
def replacements (rule : CallRule) : Forest → Nat
  | nil => 0
  | literal _ rest => rest.replacements rule
  | other _ rest => rest.replacements rule
  | group opener inside rest =>
    inside.replacements rule + rest.replacements rule
      + if (rule.replacement opener (inside.evaluate rule)).isSome then 1 else 0

end Forest

/-- Text with parentheses that match nothing: the forests that end before a closing parenthesis of
no opening one, the forest behind the last of them, and the opening parentheses that are never
closed, each with the forest behind it. -/
structure Reading where
  strays : List Forest
  middle : Forest
  unclosed : List (Option (List Char) × Forest)
deriving DecidableEq, Repr

namespace Reading

def extend (grow : Forest → Forest) : Reading → Reading
  | ⟨[], middle, unclosed⟩ => ⟨[], grow middle, unclosed⟩
  | ⟨f :: strays, middle, unclosed⟩ => ⟨grow f :: strays, middle, unclosed⟩

/-- Puts an opening parenthesis in front of a reading. It is closed by the first closing parenthesis
that matches nothing so far. -/
def enclose (opener : Option (List Char)) : Reading → Reading
  | ⟨inside :: strays, middle, unclosed⟩ =>
    extend (Forest.group opener inside) ⟨strays, middle, unclosed⟩
  | ⟨[], middle, unclosed⟩ => ⟨[], .nil, (opener, middle) :: unclosed⟩

def ofTokens : List Token → Reading
  | [] => ⟨[], .nil, []⟩
  | .literal text :: rest => (ofTokens rest).extend (Forest.literal text)
  | .other c :: rest => (ofTokens rest).extend (Forest.other c)
  | .closing :: rest => { ofTokens rest with strays := .nil :: (ofTokens rest).strays }
  | .opening opener :: rest => (ofTokens rest).enclose opener

def ofText (function text : List Char) : Reading :=
  ofTokens (Token.ofText function text)

def tokens (r : Reading) : List Token :=
  r.strays.flatMap (fun f => f.tokens ++ [.closing]) ++ r.middle.tokens
    ++ r.unclosed.flatMap fun (opener, f) => .opening opener :: f.tokens

/-- The text of a reading after a rule. -/
def evaluate (rule : CallRule) (r : Reading) : List Char :=
  r.strays.flatMap (fun f => f.evaluate rule ++ [')']) ++ r.middle.evaluate rule
    ++ r.unclosed.flatMap fun (opener, f) => opener.getD ['('] ++ f.evaluate rule

/-- The number of calls that a rule replaces in a reading. -/
def replacements (rule : CallRule) (r : Reading) : Nat :=
  (r.strays.map (Forest.replacements rule)).sum + r.middle.replacements rule
    + (r.unclosed.map fun (_, f) => f.replacements rule).sum

section Stray

variable (f : Forest) (strays : List Forest) (middle : Forest)
  (unclosed : List (Option (List Char) × Forest))

theorem tokens_stray : (Reading.mk (f :: strays) middle unclosed).tokens =
    f.tokens ++ .closing :: (Reading.mk strays middle unclosed).tokens := by
  simp [tokens]

theorem evaluate_stray (rule : CallRule) : (Reading.mk (f :: strays) middle unclosed).evaluate rule =
    f.evaluate rule ++ ')' :: (Reading.mk strays middle unclosed).evaluate rule := by
  simp [evaluate]

theorem replacements_stray (rule : CallRule) :
    (Reading.mk (f :: strays) middle unclosed).replacements rule =
      f.replacements rule + (Reading.mk strays middle unclosed).replacements rule := by
  simp [replacements, Nat.add_assoc]

end Stray

theorem tokens_extend {grow : Forest → Forest} {t : List Token}
    (hg : ∀ f, (grow f).tokens = t ++ f.tokens) (r : Reading) :
    (r.extend grow).tokens = t ++ r.tokens := by
  obtain ⟨strays, middle, unclosed⟩ := r
  cases strays with
  | nil => simp [extend, tokens, hg]
  | cons f strays => simp [extend, tokens, hg]

theorem tokens_enclose (opener : Option (List Char)) (r : Reading) :
    (r.enclose opener).tokens = .opening opener :: r.tokens := by
  obtain ⟨strays, middle, unclosed⟩ := r
  cases strays with
  | nil => simp [enclose, tokens, Forest.tokens]
  | cons inside strays =>
    rw [enclose, tokens_extend (t := .opening opener :: (inside.tokens ++ [.closing]))]
    · simp [tokens]
    · simp [Forest.tokens]

theorem tokens_ofTokens (ts : List Token) : (ofTokens ts).tokens = ts := by
  induction ts with
  | nil => rfl
  | cons t ts ih =>
    cases t with
    | literal text =>
      rw [ofTokens, tokens_extend (t := [.literal text]) fun _ => rfl, ih]
      rfl
    | other c =>
      rw [ofTokens, tokens_extend (t := [.other c]) fun _ => rfl, ih]
      rfl
    | closing =>
      rw [ofTokens]
      simpa [tokens, Forest.tokens] using ih
    | opening opener => rw [ofTokens, tokens_enclose, ih]

end Reading

namespace CallRule

variable {rule : CallRule} {s : State}

/-- Writes a text while a number of calls is replaced. -/
def State.settle (s : State) (text : List Char) (count : Nat) : State :=
  { s.write text with replaced := s.replaced || 0 < count }

@[simp] theorem State.settle_frames (t : List Char) (n : Nat) :
    (s.settle t n).frames = s.frames := rfl

@[simp] theorem State.settle_replaced (t : List Char) (n : Nat) :
    (s.settle t n).replaced = (s.replaced || decide (0 < n)) := rfl

private theorem or_pos_add (a : Bool) (m n : Nat) :
    ((a || decide (0 < m)) || decide (0 < n)) = (a || decide (0 < m + n)) := by
  cases m with
  | zero => simp
  | succ m => simp [Nat.add_right_comm m 1 n]

theorem State.settle_settle (t u : List Char) (m n : Nat) :
    (s.settle t m).settle u n = s.settle (t ++ u) (m + n) := by
  simp [State.settle, State.write, or_pos_add]

theorem State.settle_zero (t : List Char) : s.settle t 0 = s.write t := by
  simp [State.settle, State.write]

theorem foldl_tokens_forest (f : Forest) (s : State) :
    f.tokens.foldl rule.readToken s = s.settle (f.evaluate rule) (f.replacements rule) := by
  induction f generalizing s with
  | nil => simp [Forest.tokens, Forest.evaluate, Forest.replacements, State.settle_zero]
  | literal text rest ih =>
    rw [Forest.tokens, List.foldl_cons, ih, readToken, ← State.settle_zero, State.settle_settle,
      Nat.zero_add]
    rfl
  | other c rest ih =>
    rw [Forest.tokens, List.foldl_cons, ih, readToken,
      show s.copy c = s.settle [c] 0 by simp [State.settle_zero, State.copy, State.write],
      State.settle_settle, Nat.zero_add]
    rfl
  | group opener inside rest ihi ihr =>
    have hclose : rule.close ((s.push opener).settle (inside.evaluate rule)
          (inside.replacements rule)) =
        s.settle (rule.settled opener (inside.evaluate rule)) (inside.replacements rule
          + if (rule.replacement opener (inside.evaluate rule)).isSome then 1 else 0) := by
      rw [close_cons (f := ⟨s.written, opener⟩) rfl]
      by_cases hr : (rule.replacement opener (inside.evaluate rule)).isSome = true
      · simp [State.settle, State.write, State.push, hr]
      · simp [State.settle, State.write, State.push, hr]
    rw [Forest.tokens, List.foldl_cons, List.foldl_append, readToken, ihi, List.foldl_cons,
      readToken, hclose, ihr, State.settle_settle, Forest.evaluate, Forest.replacements]
    congr 1
    omega

theorem foldl_tokens_strays (strays : List Forest) (hs : s.frames = []) :
    (strays.flatMap fun f => f.tokens ++ [.closing]).foldl rule.readToken s =
      s.settle (strays.flatMap fun f => f.evaluate rule ++ [')'])
        (strays.map (Forest.replacements rule)).sum := by
  induction strays generalizing s with
  | nil => simp [State.settle_zero]
  | cons f strays ih =>
    have hclose : rule.close (s.settle (f.evaluate rule) (f.replacements rule)) =
        s.settle (f.evaluate rule ++ [')']) (f.replacements rule) := by
      rw [close_nil (by simpa using hs)]
      simp [State.settle, State.write, State.copy]
    rw [List.flatMap_cons, List.foldl_append, List.foldl_append, foldl_tokens_forest,
      List.foldl_cons, readToken, hclose, List.foldl_nil, ih (by simpa using hs),
      State.settle_settle]
    simp

theorem foldl_tokens_unclosed (rule : CallRule) (unclosed : List (Option (List Char) × Forest))
    (s : State) :
    let last := (unclosed.flatMap fun (opener, f) => .opening opener :: f.tokens).foldl
      rule.readToken s
    last.text = (s.write (unclosed.flatMap fun (opener, f) =>
        opener.getD ['('] ++ f.evaluate rule)).text ∧
      last.replaced = (s.replaced || 0 < (unclosed.map fun (_, f) => f.replacements rule).sum) := by
  induction unclosed generalizing s with
  | nil => simp
  | cons u unclosed ih =>
    obtain ⟨opener, f⟩ := u
    obtain ⟨ht, hr⟩ := ih ((s.push opener).settle (f.evaluate rule) (f.replacements rule))
    simp only [List.flatMap_cons, List.cons_append, List.foldl_cons, List.foldl_append,
      foldl_tokens_forest, readToken] at ht hr ⊢
    rw [ht, hr]
    constructor
    · simp [State.text, State.write, State.settle, State.push, Frame.keep]
    · simp [State.push, or_pos_add]

theorem foldl_tokens_reading_of_frames (rule : CallRule) (r : Reading) (hs : s.frames = []) :
    let last := r.tokens.foldl rule.readToken s
    last.text = s.written.reverse ++ r.evaluate rule ∧
      last.replaced = (s.replaced || decide (0 < r.replacements rule)) := by
  obtain ⟨strays, middle, unclosed⟩ := r
  have h := foldl_tokens_unclosed rule unclosed
    ((s.settle (strays.flatMap fun f => f.evaluate rule ++ [')'])
      (strays.map (Forest.replacements rule)).sum).settle (middle.evaluate rule)
      (middle.replacements rule))
  simp only [Reading.tokens, List.foldl_append, foldl_tokens_strays _ hs, foldl_tokens_forest] at h ⊢
  refine ⟨h.1.trans ?_, h.2.trans ?_⟩
  · simp [State.text, State.write, State.settle, Reading.evaluate, hs]
  · rw [State.settle_settle, State.settle_replaced, or_pos_add]
    rfl

theorem foldl_tokens_reading (rule : CallRule) (r : Reading) :
    let last := r.tokens.foldl rule.readToken ⟨[], [], false, false⟩
    last.text = r.evaluate rule ∧ last.replaced = decide (0 < r.replacements rule) :=
  foldl_tokens_reading_of_frames rule r rfl

end CallRule

theorem Forest.evaluate_of_replacements_eq_zero {rule : CallRule} {f : Forest}
    (h : f.replacements rule = 0) : f.evaluate rule = f.source := by
  induction f with
  | nil => rfl
  | literal text rest ih => simpa [evaluate, source, tokens, Token.source] using ih h
  | other c rest ih => simpa [evaluate, source, tokens, Token.source] using ih h
  | group opener inside rest ihi ihr =>
    simp only [replacements, Nat.add_eq_zero_iff] at h
    obtain ⟨⟨hi, hr⟩, hc⟩ := h
    have hnone : rule.replacement opener (inside.evaluate rule) = none := by
      cases he : rule.replacement opener (inside.evaluate rule) with
      | none => rfl
      | some text => simp [he] at hc
    rw [evaluate, ihr hr, CallRule.settled, hnone, ihi hi]
    simp [source, tokens, Token.source]

namespace Reading

def source (r : Reading) : List Char :=
  r.tokens.flatMap Token.source

theorem source_stray (f : Forest) (strays : List Forest) (middle : Forest)
    (unclosed : List (Option (List Char) × Forest)) :
    (Reading.mk (f :: strays) middle unclosed).source =
      f.source ++ ')' :: (Reading.mk strays middle unclosed).source := by
  simp [source, tokens_stray, Forest.source, Token.source]

theorem tokens_ofText (function text : List Char) :
    (ofText function text).tokens = Token.ofText function text :=
  tokens_ofTokens _

theorem source_ofText (function text : List Char) : (ofText function text).source = text := by
  rw [source, tokens_ofText]
  exact Token.source_cut function none text

theorem evaluate_of_replacements_eq_zero {rule : CallRule} {r : Reading}
    (h : r.replacements rule = 0) : r.evaluate rule = r.source := by
  simp only [replacements, Nat.add_eq_zero_iff, List.sum_eq_zero_iff_forall_eq_nat,
    List.forall_mem_map] at h
  obtain ⟨⟨hs, hm⟩, hu⟩ := h
  have hstrays : r.strays.flatMap (fun f => f.evaluate rule ++ [')']) =
      r.strays.flatMap fun f => (f.tokens ++ [.closing]).flatMap Token.source := by
    refine congrArg List.flatten (List.map_congr_left fun f hf => ?_)
    rw [Forest.evaluate_of_replacements_eq_zero (hs f hf)]
    simp [Forest.source, Token.source]
  have hunclosed : (r.unclosed.flatMap fun (opener, f) => opener.getD ['('] ++ f.evaluate rule) =
      r.unclosed.flatMap fun (opener, f) =>
        (Token.opening opener :: f.tokens).flatMap Token.source := by
    refine congrArg List.flatten (List.map_congr_left ?_)
    rintro ⟨opener, f⟩ hf
    dsimp only
    rw [Forest.evaluate_of_replacements_eq_zero (hu _ hf)]
    simp [Forest.source, Token.source]
  rw [evaluate, hstrays, hunclosed, Forest.evaluate_of_replacements_eq_zero hm]
  simp [source, tokens, Forest.source, List.flatMap_append, List.flatMap_assoc]

end Reading

namespace CallRule

/-- The text that a rule leaves, whether it replaced anything or not. -/
def output (rule : CallRule) (text : List Char) : List Char :=
  (Reading.ofText rule.function text).evaluate rule

theorem text_foldl_tokens (rule : CallRule) (text : List Char) :
    ((Token.ofText rule.function text).foldl rule.readToken ⟨[], [], false, false⟩).text =
      rule.output text := by
  have ht := (foldl_tokens_reading rule (Reading.ofText rule.function text)).1
  rwa [Reading.tokens_ofText] at ht

theorem apply_eq_ite {rule : CallRule} (hf : rule.function.all isWord = true) (text : List Char) :
    rule.apply text = if (Reading.ofText rule.function text).replacements rule = 0 then none
      else some (rule.output text) := by
  obtain ⟨q, hq⟩ := run_eq_foldl_tokens hf text
  have ht := text_foldl_tokens rule text
  have hr := (foldl_tokens_reading rule (Reading.ofText rule.function text)).2
  rw [Reading.tokens_ofText] at hr
  rw [apply, hq]
  by_cases h0 : (Reading.ofText rule.function text).replacements rule = 0
  · simp [hr, h0]
  · simp only [hr, h0, if_false, Nat.pos_of_ne_zero h0, decide_true, if_true, ← ht]
    rfl

theorem output_eq_self {rule : CallRule} {text : List Char}
    (h : (Reading.ofText rule.function text).replacements rule = 0) : rule.output text = text := by
  rw [output, Reading.evaluate_of_replacements_eq_zero h, Reading.source_ofText]

theorem getD_apply {rule : CallRule} (hf : rule.function.all isWord = true) (text : List Char) :
    (rule.apply text).getD text = rule.output text := by
  rw [apply_eq_ite hf]
  split
  · next h => exact (output_eq_self h).symm
  · rfl

end CallRule

/-- A call rule answers the evaluation of the reading of a text, or nothing if that replaces no
call; the evaluation then is the text. -/
theorem CallRule.apply_eq_evaluate (rule : CallRule) (hf : rule.function.all isWord = true)
    (text : List Char) :
    let r := Reading.ofText rule.function text
    r.source = text ∧
      rule.apply text = (if r.replacements rule = 0 then none else some (r.evaluate rule)) ∧
      (r.replacements rule = 0 → r.evaluate rule = text) :=
  ⟨Reading.source_ofText rule.function text, apply_eq_ite hf text, output_eq_self⟩

/-- A rule that shortens calls of one argument settles the inner call of a declined outer one, and
leaves literals, strays and what is never closed. -/
theorem CallRule.apply_eq_evaluate_nested :
    let rule : CallRule :=
      ⟨"shorten", "F".toList, fun args => if args.length = 1 then some "G(".toList else none⟩
    rule.function.all isWord = true ∧
      rule.apply "F(a, F(b)) 'F(c)' ) f (d".toList = some "F(a, G() 'F(c)' ) f (d".toList := by
  intro rule
  have hf : rule.function.all isWord = true := by decide
  refine ⟨hf, ?_⟩
  rw [(rule.apply_eq_evaluate hf _).2.1]
  cbv

end ReportMigration.Sql
