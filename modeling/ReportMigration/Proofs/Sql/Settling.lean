import ReportMigration.Proofs.Sql.Balance

/-!
# Calls settled one at a time

What a call rule leaves of a text comes about when one call after the other is replaced, each of
them at a time when it holds no other call to replace. A replacement that is again a call, of a
function with another name and with arguments in which nothing is left to replace, has one call of
the rule less in it, so in the end the rule finds no call any more.
-/

namespace ReportMigration.Sql

open Text Token

def Token.isCall : Token → Bool
  | .opening (some _) => true
  | _ => false

theorem Token.countP_others (text : List Char) :
    (text.map Token.other).countP Token.isCall = 0 := by
  rw [List.countP_eq_zero]
  intro t ht
  obtain ⟨c, -, rfl⟩ := List.mem_map.1 ht
  exact Bool.false_ne_true

/-- The number of calls of a function that a text opens outside literals. -/
def calls (function text : List Char) : Nat :=
  (ofText function text).countP Token.isCall

variable {rule : CallRule} {text : List Char}

/-- A rule that replaces a call in a forest finds one in it whose argument it accepts as it is
written. -/
theorem Forest.exists_call {f : Forest} (h : f.replacements rule ≠ 0) :
    ∃ pre o, ∃ inside : Forest, ∃ post,
      f.tokens = pre ++ .opening (some o) :: (inside.tokens ++ .closing :: post) ∧
        (rule.transform (Arguments.split inside.source)).isSome = true := by
  induction f with
  | nil => exact absurd rfl h
  | literal text rest ih =>
    obtain ⟨pre, o, inside, post, he, hsome⟩ := ih h
    exact ⟨.literal text :: pre, o, inside, post, by rw [tokens, he]; rfl, hsome⟩
  | other c rest ih =>
    obtain ⟨pre, o, inside, post, he, hsome⟩ := ih h
    exact ⟨.other c :: pre, o, inside, post, by rw [tokens, he]; rfl, hsome⟩
  | group opener middle rest ihi ihr =>
    by_cases hi : middle.replacements rule = 0
    · by_cases hr : rest.replacements rule = 0
      · -- The call itself is replaced, and nothing in its argument.
        have hcall : (rule.replacement opener middle.source).isSome = true := by
          by_contra hnone
          rw [replacements, hi, hr, Forest.evaluate_of_replacements_eq_zero hi, if_neg hnone] at h
          exact h rfl
        cases opener with
        | none => cases hcall
        | some o => exact ⟨[], o, middle, rest.tokens, rfl, hcall⟩
      · obtain ⟨pre, o, inside, post, he, hsome⟩ := ihr hr
        exact ⟨.opening opener :: (middle.tokens ++ .closing :: pre), o, inside, post,
          by rw [tokens, he]; simp, hsome⟩
    · obtain ⟨pre, o, inside, post, he, hsome⟩ := ihi hi
      exact ⟨.opening opener :: pre, o, inside, post ++ .closing :: rest.tokens,
        by rw [tokens, he]; simp, hsome⟩

theorem Reading.exists_forest {r : Reading} (h : r.replacements rule ≠ 0) :
    ∃ pre, ∃ f : Forest, ∃ post, r.tokens = pre ++ (f.tokens ++ post) ∧ f.replacements rule ≠ 0 := by
  obtain ⟨strays, middle, unclosed⟩ := r
  by_cases hs : ∃ f ∈ strays, f.replacements rule ≠ 0
  · obtain ⟨f, hm, hf⟩ := hs
    obtain ⟨before, behind, rfl⟩ := List.append_of_mem hm
    exact ⟨_, f, _, by simp [tokens, List.append_assoc]; rfl, hf⟩
  by_cases hu : ∃ u ∈ unclosed, u.2.replacements rule ≠ 0
  · obtain ⟨⟨opener, f⟩, hm, hf⟩ := hu
    obtain ⟨before, behind, rfl⟩ := List.append_of_mem hm
    refine ⟨strays.flatMap (fun f => f.tokens ++ [.closing]) ++ middle.tokens ++
      (before.flatMap fun u => .opening u.1 :: u.2.tokens) ++ [.opening opener], f, _,
      by simp [tokens, List.append_assoc]; rfl, hf⟩
  · refine ⟨_, middle, _, by rw [tokens, List.append_assoc], fun hm => h ?_⟩
    push Not at hs hu
    simp only [replacements, Nat.add_eq_zero_iff, List.sum_eq_zero_iff_forall_eq_nat,
      List.forall_mem_map]
    exact ⟨⟨hs, hm⟩, hu⟩

namespace CallRule

/-- One closed call is replaced that holds no other call to replace. -/
inductive Settles (rule : CallRule) : List Char → List Char → Prop
  | call {front o inside text : List Char} (hfront : Unquoted front)
    (hword : front.getLast?.any isWord = false) (ho : Opens rule.function o)
    (hinside : Closed inside) (hnone : rule.apply inside = none)
    (ht : rule.transform (Arguments.split inside) = some text) (back : List Char) :
    Settles rule (front ++ (o ++ (inside ++ ')' :: back))) (front ++ (text ++ back))

private theorem unquoted_of_regularFrom {function : List Char} (hf : Named function)
    {before : Option Char} {ts : List Token} (h : RegularFrom function before ts) :
    Unquoted (ts.flatMap Token.source) := by
  induction ts generalizing before with
  | nil => exact unquoted_nil
  | cons t ts ih => exact unquoted_append (h.1.unquoted hf) (ih h.2)

/-- A rule that replaces anything finds a closed call whose argument it accepts as it is written. -/
theorem exists_call (hf : Named rule.function) (h : rule.apply text ≠ none) :
    ∃ front o inside back, text = front ++ (o ++ (inside ++ ')' :: back)) ∧ Unquoted front ∧
      front.getLast?.any isWord = false ∧ Opens rule.function o ∧ Closed inside ∧
        (rule.transform (Arguments.split inside)).isSome = true := by
  have hne : (Reading.ofText rule.function text).replacements rule ≠ 0 := by
    intro hzero
    rw [apply_eq_ite hf.isWord, if_pos hzero] at h
    exact h rfl
  obtain ⟨pre, f, post, htokens, hne⟩ := Reading.exists_forest hne
  obtain ⟨pre', o, inside, post', hcall, hsome⟩ := Forest.exists_call hne
  have hsource := Reading.source_ofText rule.function text
  have hloose := looseFrom_cut hf text none
  have he : (Reading.ofText rule.function text).tokens =
      (pre ++ pre') ++ .opening (some o) :: (inside.tokens ++ .closing :: (post' ++ post)) := by
    rw [htokens, hcall]
    simp
  rw [← ofText, ← Reading.tokens_ofText, he] at hloose
  rw [Reading.source, he] at hsource
  obtain ⟨hfront, hopen⟩ := LooseFrom.append_cons hloose
  rcases hopen with ⟨hopen, hrest⟩ | ⟨-, literal, hliteral, -⟩
  · obtain ⟨hinside, -⟩ := LooseFrom.append_cons hrest
    refine ⟨(pre ++ pre').flatMap Token.source, o, inside.source, (post' ++ post).flatMap Token.source,
      ?_, unquoted_of_regularFrom hf hfront, ?_, hopen.1, Forest.closed_source hf hinside, hsome⟩
    · rw [← hsource]
      simp [Token.source, Forest.source]
    · simpa using hopen.2
  · cases hliteral

theorem Settles.inside {next : List Char} (h : rule.Settles text next) {front o : List Char}
    (hfront : Unquoted front) (hf : Named rule.function) (ho : Opens rule.function o)
    (back : List Char) : ∃ next', rule.Settles (front ++ (o ++ (text ++ back))) next' := by
  obtain @⟨front', o', inside, text', hfront', hword', ho', hinside, hnone, ht, back'⟩ := h
  have hregular : Regular rule.function none (.opening (some o)) := ⟨ho, rfl⟩
  have hopener : Unquoted o := hregular.unquoted hf
  have hlast : (front ++ o ++ front').getLast?.any isWord = false := by
    obtain ⟨name, blanks, rfl, -, -⟩ := ho
    rw [List.getLast?_append]
    cases hl : front'.getLast? with
    | some c => simpa [hl] using hword'
    | none => simp [show isWord '(' = false by decide]
  have hs := Settles.call (unquoted_append (unquoted_append hfront hopener) hfront') hlast ho' hinside
    hnone ht (back' ++ back)
  exact ⟨_, by simpa using hs⟩

/-- A rule that replaces anything finds a call that holds no other one to replace. -/
theorem exists_settles (hf : Named rule.function) (h : rule.apply text ≠ none) :
    ∃ next, rule.Settles text next := by
  induction hn : text.length using Nat.strongRecOn generalizing text with
  | ind k ih =>
    subst hn
    obtain ⟨front, o, inside, back, rfl, hfront, hword, ho, hinside, hsome⟩ := exists_call hf h
    by_cases hnone : rule.apply inside = none
    · obtain ⟨text, ht⟩ := Option.isSome_iff_exists.1 hsome
      exact ⟨_, .call hfront hword ho hinside hnone ht back⟩
    · obtain ⟨next, hnext⟩ := ih inside.length (by simp; omega) hnone rfl
      exact hnext.inside hfront hf ho (')' :: back)

/-- Whether a rule replaces a call in a text. -/
def finds (rule : CallRule) (text : List Char) : Bool :=
  (rule.apply text).isSome

theorem finds_eq_false : rule.finds text = false ↔ rule.apply text = none := by
  simp [finds]

/-- Reading the tokens writes the text, whatever parentheses are open, finds a call to replace or
not, and passes so many calls. -/
structure Reads (rule : CallRule) (ts : List Token) (text : List Char) (found : Bool) (count : Nat) :
    Prop where
  foldl : ∀ s : State,
    ts.foldl rule.readToken s = { s.write text with replaced := s.replaced || found }
  count : ts.countP Token.isCall = count

variable {ts us : List Token} {t u : List Char} {found found' : Bool} {m n : Nat}

theorem Reads.append (ht : Reads rule ts t found m) (hu : Reads rule us u found' n) :
    Reads rule (ts ++ us) (t ++ u) (found || found') (m + n) where
  foldl s := by
    rw [List.foldl_append, ht.foldl, hu.foldl, State.write_append, ← Bool.or_assoc]
    rfl
  count := by rw [List.countP_append, ht.count, hu.count]

theorem reads_others (rule : CallRule) (text : List Char) :
    Reads rule (text.map .other) text false 0 where
  foldl s := by
    obtain ⟨r, hr⟩ := writes_others rule text s
    have hreplaced : ((text.map Token.other).foldl rule.readToken s).replaced = s.replaced := by
      clear hr
      induction text generalizing s with
      | nil => rfl
      | cons c text ih => exact ih (s.copy c)
    rw [hr] at hreplaced ⊢
    obtain rfl : r = s.replaced := hreplaced
    rw [Bool.or_false]
  count := Token.countP_others text

theorem reads_literal (rule : CallRule) (text : List Char) :
    Reads rule [.literal text] text false 0 where
  foldl s := by simp [readToken, State.write]
  count := rfl

theorem reads_forest (rule : CallRule) (f : Forest) : Reads rule f.tokens (f.evaluate rule)
    (decide (0 < f.replacements rule)) (f.tokens.countP Token.isCall) where
  foldl s := foldl_tokens_forest f s
  count := rfl

theorem Reads.group (h : Reads rule ts t found n) :
    Reads rule (.opening none :: (ts ++ [.closing])) ('(' :: (t ++ [')'])) found n where
  foldl s := by
    rw [List.foldl_cons, List.foldl_append, readToken, h.foldl, List.foldl_cons, List.foldl_nil,
      readToken, close_cons (f := ⟨s.written, none⟩) rfl]
    simp [settled, replacement, State.write, State.push]
  count := by simp [h.count, isCall]

theorem Reads.spec (hf : Named rule.function)
    (h : Reads rule (cut rule.function none text) t found n) :
    rule.finds text = found ∧ calls rule.function text = n ∧ rule.output text = t := by
  refine ⟨?_, h.count, Writes.output rfl fun s => ⟨_, h.foldl s⟩⟩
  have hnone := apply_eq_none_iff hf text
  rw [ofText, h.foldl, Bool.false_or, ← finds_eq_false] at hnone
  exact Bool.eq_iff_iff.2 (by simpa using not_congr hnone)

theorem reads_closed (hf : Named rule.function) (h : Closed text) :
    Reads rule (cut rule.function none text) (rule.output text) (rule.finds text)
      (calls rule.function text) := by
  obtain ⟨f, htokens, -, -, -⟩ := exists_forest_output hf h
  have hread := reads_forest rule f
  rw [← htokens] at hread
  obtain ⟨hfound, hcount, hout⟩ := hread.spec hf
  rwa [hfound, hcount, hout]

theorem reads_comma (hf : Named rule.function) {x z : List Char} (hx : Closed x) (hz : Closed z) :
    Reads rule (cut rule.function none (x ++ ',' :: z)) (rule.output x ++ ',' :: rule.output z)
      (rule.finds x || rule.finds z) (calls rule.function x + calls rule.function z) := by
  have hread := (reads_closed hf hx).append ((reads_others rule [',']).append (reads_closed hf hz))
  rwa [List.map_singleton, List.singleton_append, ← cut_comma hf hx.unquoted, List.singleton_append,
    Bool.false_or, Nat.zero_add] at hread

theorem finds_comma (hf : Named rule.function) {x z : List Char} (hx : Closed x) (hz : Closed z) :
    rule.finds (x ++ ',' :: z) = (rule.finds x || rule.finds z) ∧
      calls rule.function (x ++ ',' :: z) = calls rule.function x + calls rule.function z :=
  let ⟨hfound, hcount, _⟩ := (reads_comma hf hx hz).spec hf
  ⟨hfound, hcount⟩

theorem reads_pieces (hf : Named rule.function) {first : List Char} {others : List (List Char)}
    (hfirst : Item first) (hothers : ∀ piece ∈ others, Item piece) :
    let text := first ++ others.flatMap fun piece => ',' :: piece
    Closed text ∧ Reads rule (cut rule.function none text)
      (rule.output first ++ (others.map rule.output).flatMap fun piece => ',' :: piece)
      (rule.finds first || others.any rule.finds)
      (calls rule.function first + (others.map (calls rule.function)).sum) := by
  induction others generalizing first with
  | nil => simpa using And.intro hfirst.closed (reads_closed hf hfirst.closed)
  | cons piece others ih =>
    obtain ⟨hpiece, hothers⟩ := List.forall_mem_cons.1 hothers
    obtain ⟨hclosed, hread⟩ := ih hpiece hothers
    obtain ⟨hfound, hcount, hout⟩ := hread.spec hf
    have hwhole := reads_comma hf hfirst.closed hclosed
    rw [hfound, hcount, hout] at hwhole
    refine ⟨?_, hwhole⟩
    rw [List.flatMap_cons, Closed, List.cons_append, Place.walk_append, hfirst.closed]
    exact hclosed

theorem finds_trim (hf : Named rule.function) (h : Closed text) :
    rule.finds (trim text) = rule.finds text ∧
      calls rule.function (trim text) = calls rule.function text := by
  have htrim : Closed (trim text) := (Place.walk_trim false _ text).trans h
  obtain ⟨lead, trail, -, -, -, hcut⟩ := cut_trim hf htrim.unquoted
  have hread := (reads_others rule lead).append
    ((reads_closed hf htrim).append (reads_others rule trail))
  rw [← hcut] at hread
  obtain ⟨hfound, hcount, -⟩ := hread.spec hf
  exact ⟨by simp [hfound], by simp [hcount]⟩

theorem reads_split (hf : Named rule.function) (h : Closed text) :
    ∃ first others, Arguments.pieces text = first :: others ∧ Item first ∧
      (∀ piece ∈ others, Item piece) ∧
      rule.finds text = (Arguments.pieces text).any rule.finds ∧
      calls rule.function text = ((Arguments.pieces text).map (calls rule.function)).sum ∧
      rule.output text =
        rule.output first ++ (others.map rule.output).flatMap fun piece => ',' :: piece := by
  have hitems : ∀ piece ∈ Arguments.pieces text, Item piece :=
    fun piece hp => Arguments.item_of_mem_pieces h hp
  obtain ⟨hfirst, hothers⟩ := List.forall_mem_cons.1 hitems
  obtain ⟨-, hread⟩ := reads_pieces hf hfirst hothers
  rw [Arguments.text_cut ⟨false, 0⟩ text] at hread
  obtain ⟨hfound, hcount, hout⟩ := hread.spec hf
  exact ⟨_, _, rfl, hfirst, hothers, hfound, hcount, hout⟩

theorem finds_split (hf : Named rule.function) (h : Closed text) :
    rule.finds text = (Arguments.split text).any rule.finds ∧
      calls rule.function text = ((Arguments.split text).map (calls rule.function)).sum := by
  obtain ⟨_, _, -, -, -, hfound, hcount, -⟩ := reads_split hf h
  have hsame : ∀ piece ∈ Arguments.pieces text, rule.finds (trim piece) = rule.finds piece ∧
      calls rule.function (trim piece) = calls rule.function piece :=
    fun piece hp => finds_trim hf (Arguments.item_of_mem_pieces h hp).closed
  constructor
  · rw [hfound, Arguments.split, List.any_map, Bool.eq_iff_iff, List.any_eq_true, List.any_eq_true]
    exact exists_congr fun piece => and_congr_right fun hp => by rw [Function.comp, (hsame piece hp).1]
  · rw [hcount, Arguments.split, List.map_map]
    exact congrArg List.sum (List.map_congr_left fun piece hp => (hsame piece hp).2.symm)

theorem split_output (ht : Tidy rule.transform) (hf : Named rule.function) (h : Closed text) :
    Arguments.split (rule.output text) = (Arguments.split text).map rule.output := by
  obtain ⟨first, others, hpieces, hfirst, hothers, -, -, hout⟩ := reads_split hf h
  have hothers' : ∀ piece ∈ others.map rule.output, Item piece := by
    simpa using fun piece hp => item_output ht hf (hothers piece hp)
  rw [Arguments.split, Arguments.split, hout, Arguments.pieces_of_items (item_output ht hf hfirst)
    hothers', ← List.map_cons, ← hpieces, List.map_map, List.map_map]
  exact List.map_congr_left fun piece hp =>
    (output_trim ht hf (Arguments.item_of_mem_pieces h hp).closed).symm

/-- Every replacement is a call of another function, and the rule finds in it what it finds in the
arguments. -/
def Wraps (rule : CallRule) (transform : List (List Char) → Option (List Char)) : Prop :=
  ∀ {args text}, (∀ arg ∈ args, Item arg) → transform args = some text → ∃ name inner,
    text = (name ++ ['(']) ++ (inner ++ [')']) ∧ Named name ∧ Apart rule.function name ∧ Closed inner ∧
      rule.finds inner = args.any rule.finds ∧
        calls rule.function inner = (args.map (calls rule.function)).sum

theorem cut_own_call (hf : Named rule.function) {front o inside : List Char} (hfront : Unquoted front)
    (hword : front.getLast?.any isWord = false) (ho : Opens rule.function o)
    (hinside : Unquoted inside) (back : List Char) :
    ofText rule.function (front ++ (o ++ (inside ++ ')' :: back))) = cut rule.function none front ++
      .opening (some o) :: (cut rule.function none inside ++ .closing :: cut rule.function none back) := by
  rw [ofText, cut_append hf hfront, Option.or_none, cut_opens hf ho hword, cut_argument hf hinside]
  · exact fun hq => absurd hq (ho.head_append hf _)
  · refine fun b x hx => opener_eq_of_opens hf hf ho (fun a ha he => ha ?_) hx _
    exact List.append_left_eq_self.1 he.symm

theorem cut_beside_call (hf : Named rule.function) {name : List Char} (hn : Named name)
    (hapart : Apart rule.function name) {o inside : List Char} (ho : Opens name o)
    (hinside : Unquoted inside) (before : Option Char) (back : List Char) :
    cut rule.function before (o ++ (inside ++ ')' :: back)) =
      (o.dropLast.map .other ++ .opening none :: (cut rule.function none inside ++ [.closing])) ++
        cut rule.function none back := by
  rw [cut_opens_other hf hn hapart.ne ho, cut_argument hf hinside]
  simp

theorem cut_other_call (hf : Named rule.function) {name : List Char} (hn : Named name)
    (hapart : Apart rule.function name) {front o inside : List Char} (hfront : Unquoted front)
    (ho : Opens name o) (hinside : Unquoted inside) (back : List Char) :
    ofText rule.function (front ++ (o ++ (inside ++ ')' :: back))) = cut rule.function none front ++
      ((o.dropLast.map .other ++ .opening none :: (cut rule.function none inside ++ [.closing])) ++
        cut rule.function none back) := by
  rw [ofText, cut_append hf hfront, cut_beside_call hf hn hapart ho hinside]
  · exact fun hq => absurd hq (ho.head_append hn _)
  · exact fun b x hx => opener_eq_of_opens hf hn ho hapart.ne_append hx _

theorem calls_own_call (hf : Named rule.function) {front o inside : List Char}
    (hfront : Unquoted front) (hword : front.getLast?.any isWord = false)
    (ho : Opens rule.function o) (hinside : Unquoted inside) (back : List Char) :
    calls rule.function (front ++ (o ++ (inside ++ ')' :: back))) = calls rule.function front +
      (calls rule.function inside + calls rule.function back) + 1 := by
  rw [calls, cut_own_call hf hfront hword ho hinside, List.countP_append, List.countP_cons,
    List.countP_append, List.countP_cons]
  rfl

theorem calls_other_call (hf : Named rule.function) {name : List Char} (hn : Named name)
    (hapart : Apart rule.function name) {front o inside : List Char} (hfront : Unquoted front)
    (ho : Opens name o) (hinside : Unquoted inside) (back : List Char) :
    calls rule.function (front ++ (o ++ (inside ++ ')' :: back))) = calls rule.function front +
      (calls rule.function inside + calls rule.function back) := by
  have hnone : [Token.opening none].countP Token.isCall = 0 ∧
      [Token.closing].countP Token.isCall = 0 := ⟨rfl, rfl⟩
  rw [calls, cut_other_call hf hn hapart hfront ho hinside, List.countP_append, List.countP_append,
    List.countP_append, Token.countP_others, ← List.singleton_append, List.countP_append,
    List.countP_append, hnone.1, hnone.2]
  simp only [calls, ofText]
  omega

theorem reads_other_call (hf : Named rule.function) {name o inside : List Char} (ho : Opens name o)
    (hinside : Closed inside) : Reads rule
      (o.dropLast.map .other ++ .opening none :: (cut rule.function none inside ++ [.closing]))
      (o ++ (rule.output inside ++ [')'])) (rule.finds inside) (calls rule.function inside) := by
  have hread := (reads_others rule o.dropLast).append (reads_closed hf hinside).group
  have htext : o.dropLast ++ '(' :: (rule.output inside ++ [')']) =
      o ++ (rule.output inside ++ [')']) := by
    conv => rhs; rw [← ho.dropLast_append]
    simp
  rwa [htext, Bool.false_or, Nat.zero_add] at hread

theorem text_foldl_replaced (ts : List Token) (s : State) (replaced : Bool) :
    (ts.foldl rule.readToken { s with replaced := replaced }).text =
      (ts.foldl rule.readToken s).text := by
  have hstep : ∀ (s : State) (t : Token) (replaced : Bool), ∃ replaced',
      rule.readToken { s with replaced := replaced } t =
        { rule.readToken s t with replaced := replaced' } := by
    intro s t replaced
    cases t with
    | literal text => exact ⟨replaced, rfl⟩
    | opening opener => exact ⟨replaced, rfl⟩
    | other c => exact ⟨replaced, rfl⟩
    | closing =>
      obtain ⟨frames, written, quoted, replaced'⟩ := s
      cases frames with
      | nil => exact ⟨replaced, rfl⟩
      | cons f frames => exact ⟨_, by rw [readToken, readToken, close_cons rfl, close_cons rfl]⟩
  induction ts generalizing s replaced with
  | nil => rfl
  | cons t ts ih =>
    obtain ⟨replaced', h⟩ := hstep s t replaced
    rw [List.foldl_cons, List.foldl_cons, h, ih]

theorem replaced_foldl (ts : List Token) {s : State} (h : s.replaced = true) :
    (ts.foldl rule.readToken s).replaced = true := by
  induction ts generalizing s with
  | nil => exact h
  | cons t ts ih =>
    refine ih ?_
    cases t with
    | literal text => exact h
    | opening opener => exact h
    | other c => exact h
    | closing =>
      rw [readToken]
      cases hfr : s.frames with
      | nil => rw [close_nil hfr]; exact h
      | cons f frames => rw [close_cons hfr]; simp [h]

theorem output_of_finds (hf : Named rule.function) (h : rule.finds text = false) :
    rule.output text = text := by
  rw [← getD_apply hf.isWord, finds_eq_false.1 h]
  rfl

/-- A rule replaces a call in a text exactly if the text holds a closed call of its function, outside
literals and at a word boundary, whose argument it accepts as it is written. -/
theorem finds_iff (hf : Named rule.function) : rule.finds text = true ↔
    ∃ front o inside back, text = front ++ (o ++ (inside ++ ')' :: back)) ∧ Unquoted front ∧
      front.getLast?.any isWord = false ∧ Opens rule.function o ∧ Closed inside ∧
        (rule.transform (Arguments.split inside)).isSome = true := by
  constructor
  · intro h
    exact exists_call hf fun hnone => by simp [finds, hnone] at h
  · rintro ⟨front, o, inside, back, rfl, hfront, hword, ho, hinside, hsome⟩
    have hread := reads_closed hf hinside
    rw [← Bool.not_eq_false, finds_eq_false, apply_eq_none_iff hf,
      cut_own_call hf hfront hword ho hinside.unquoted, List.foldl_append, List.foldl_cons,
      List.foldl_append, List.foldl_cons, hread.foldl, Bool.not_eq_false]
    generalize (cut rule.function none front).foldl rule.readToken ⟨[], [], false, false⟩ = s
    refine replaced_foldl _ ?_
    rw [readToken, readToken, close_cons (f := ⟨s.written, some o⟩) rfl]
    -- Either a call inside was replaced, or the argument is still as it was written.
    cases hfound : rule.finds inside with
    | true => simp
    | false => simp [output_of_finds hf hfound, replacement, State.write, State.push, hsome]

/-- Of two rules for one function, the one that accepts less finds nothing where the other finds
nothing. -/
theorem finds_eq_false_of_accepts {other : CallRule} (hf : Named rule.function)
    (hsame : other.function = rule.function)
    (haccepts : ∀ {args}, (other.transform args).isSome = true → (rule.transform args).isSome = true)
    (h : rule.finds text = false) : other.finds text = false := by
  rw [← Bool.not_eq_true] at h ⊢
  rw [finds_iff (hsame ▸ hf)]
  rintro ⟨front, o, inside, back, he, hfront, hword, ho, hinside, hsome⟩
  exact h ((finds_iff hf).2
    ⟨front, o, inside, back, he, hfront, hword, hsame ▸ ho, hinside, haccepts hsome⟩)

theorem opens_name (name : List Char) : Opens name (name ++ ['(']) :=
  ⟨name, [], rfl, rfl, rfl⟩

/-- A settled call leaves the rule to do what it had to do without it, with a call less. -/
theorem Settles.output_eq (hf : Named rule.function) (hw : Wraps rule rule.transform)
    {next : List Char} (h : rule.Settles text next) :
    rule.output next = rule.output text ∧
      calls rule.function next < calls rule.function text := by
  obtain @⟨front, o, inside, text, hfront, hword, ho, hinside, hnone, ht, back⟩ := h
  obtain ⟨name, inner, rfl, hname, hapart, hinner, hfinds, hcalls⟩ :=
    hw (fun arg ha => Arguments.item_of_mem_split hinside ha) ht
  obtain ⟨hfound, hcount⟩ := finds_split hf hinside
  have hquiet : rule.finds inside = false := finds_eq_false.2 hnone
  have hquiet' : rule.finds inner = false := by rw [hfinds, ← hfound, hquiet]
  have hread := reads_closed hf hinside
  rw [hquiet, output_of_finds hf hquiet] at hread
  have hread' := reads_other_call hf (opens_name name) hinner
  rw [hquiet', output_of_finds hf hquiet'] at hread'
  have htokens := cut_own_call hf hfront hword ho hinside.unquoted back
  have htokens' := cut_other_call hf hname hapart hfront (opens_name name) hinner.unquoted back
  generalize (name ++ ['(']).dropLast.map Token.other ++
    .opening none :: (cut rule.function none inner ++ [.closing]) = ts at hread' htokens'
  have hnext : front ++ ((name ++ ['(']) ++ (inner ++ [')']) ++ back) =
      front ++ ((name ++ ['(']) ++ (inner ++ ')' :: back)) := by simp
  rw [hnext]
  constructor
  · rw [← text_foldl_tokens, ← text_foldl_tokens, htokens, htokens']
    generalize hs : (cut rule.function none front).foldl rule.readToken ⟨[], [], false, false⟩ = s
    have hclose : rule.readToken ((cut rule.function none inside).foldl rule.readToken
        (s.push (some o))) .closing =
          { s.write ((name ++ ['(']) ++ (inner ++ [')'])) with replaced := true } := by
      rw [hread.foldl, readToken, close_cons (f := ⟨s.written, some o⟩) rfl]
      simp [settled, replacement, ht, State.write, State.push]
    rw [List.foldl_append, hs, List.foldl_append, hread'.foldl, List.foldl_append, hs, List.foldl_cons,
      List.foldl_append, List.foldl_cons]
    rw [readToken, hclose, text_foldl_replaced]
    exact (text_foldl_replaced _ _ _).symm
  · rw [calls_own_call hf hfront hword ho hinside.unquoted,
      calls_other_call hf hname hapart hfront (opens_name name) hinner.unquoted, hcalls, ← hcount]
    omega

/-- What a rule leaves of a text comes about when one call after the other is settled, and no call
is left in it that the rule would replace. -/
theorem settles_output (hf : Named rule.function) (hw : Wraps rule rule.transform)
    (text : List Char) : Relation.ReflTransGen rule.Settles text (rule.output text) ∧
      rule.apply (rule.output text) = none := by
  induction hn : calls rule.function text using Nat.strongRecOn generalizing text with
  | ind k ih =>
    subst hn
    by_cases hnone : rule.apply text = none
    · rw [output_of_finds hf (finds_eq_false.2 hnone)]
      exact ⟨.refl, hnone⟩
    · obtain ⟨next, hnext⟩ := exists_settles hf hnone
      obtain ⟨hout, hless⟩ := hnext.output_eq hf hw
      obtain ⟨hsettles, hdone⟩ := ih _ hless next rfl
      rw [hout] at hsettles hdone
      exact ⟨.head hnext hsettles, hdone⟩

end CallRule

end ReportMigration.Sql
