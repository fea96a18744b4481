import ReportMigration.Proofs.Sql.Nesting
import ReportMigration.Proofs.Sql.Token
import ReportMigration.Proofs.Text.Confined
import ReportMigration.Proofs.Text.Trim

/-!
# Seams

Where a text may be taken apart without changing its tokens: in front of a closing parenthesis, and
in front of the opener of a call, for another function as well as for the function itself.
-/

namespace ReportMigration.Sql

open Text

def Named (function : List Char) : Prop :=
  function ≠ [] ∧ function.all (fun c => c.toNat < 0x80 && isWord c) = true

instance (function : List Char) : Decidable (Named function) :=
  inferInstanceAs (Decidable (_ ∧ _))

/-- The text opens a call of a function: its name, white space and a parenthesis. -/
def Opens (function text : List Char) : Prop :=
  ∃ name blanks, text = name ++ (blanks ++ ['(']) ∧ name.map foldCase = function.map foldCase ∧
    blanks.all isBlank = true

variable {function other text : List Char} {before : Option Char}

theorem Named.isWord (h : Named function) : function.all isWord = true := by
  refine List.all_eq_true.2 fun c hc => ?_
  have hcw := List.all_eq_true.1 h.2 c hc
  simp only [Bool.and_eq_true] at hcw
  exact hcw.2

theorem Named.word (h : Named function) {name : List Char}
    (hn : name.map foldCase = function.map foldCase) :
    name ≠ [] ∧ ∀ c ∈ name, Text.isWord c = true := by
  refine ⟨?_, fun c hc => ?_⟩
  · rintro rfl
    exact h.1 (List.map_eq_nil_iff.1 hn.symm)
  · have hm : foldCase c ∈ function.map foldCase := hn ▸ List.mem_map_of_mem hc
    obtain ⟨w, hw, he⟩ := List.mem_map.1 hm
    have hwc := List.all_eq_true.1 h.2 w hw
    simp only [Bool.and_eq_true, decide_eq_true_eq] at hwc
    exact isWord_of_foldCase_eq he.symm hwc.1 hwc.2

theorem Named.getLast?_append (h : Named function) {name : List Char}
    (hn : name.map foldCase = function.map foldCase) (text : List Char) :
    (text ++ name).getLast?.any Text.isWord = true := by
  obtain ⟨hne, hword⟩ := h.word hn
  rw [List.getLast?_append, List.getLast?_eq_some_getLast hne]
  exact hword _ (List.getLast_mem hne)

theorem Opens.exists_head (hf : Named function) (h : Opens function text) :
    ∃ c rest, text = c :: rest ∧ Text.isWord c = true := by
  obtain ⟨name, blanks, rfl, hn, -⟩ := h
  obtain ⟨hne, hword⟩ := hf.word hn
  cases name with
  | nil => exact absurd rfl hne
  | cons c name => exact ⟨c, _, rfl, hword c List.mem_cons_self⟩

theorem Opens.head_append (hf : Named function) (h : Opens function text) (rest : List Char) :
    (text ++ rest).head? ≠ some '\'' := by
  obtain ⟨c, tail, rfl, hc⟩ := h.exists_head hf
  rintro ⟨⟩
  exact absurd hc (by decide)

theorem Opens.notMem_paren (hf : Named function) {name blanks : List Char}
    (hn : name.map foldCase = function.map foldCase) (hb : blanks.all isBlank = true) :
    '(' ∉ name ++ blanks := by
  intro hm
  rcases List.mem_append.1 hm with hm | hm
  · exact absurd ((hf.word hn).2 _ hm) (by decide)
  · exact absurd (List.all_eq_true.1 hb _ hm) (by decide)

namespace CallRule

theorem opener_inv (hf : Named function) {u : Unit} {n : Nat}
    (h : opener function ⟨before, text⟩ = some (u, n)) :
    ∃ o rest, text = o ++ rest ∧ Opens function o ∧ n = o.length ∧ before.any isWord = false := by
  obtain ⟨name, blanks, rest, rfl, hname, hblanks, hbound, rfl⟩ := opener_eq_some h
  obtain ⟨hne, hword⟩ := hf.word hname
  refine ⟨name ++ (blanks ++ ['(']), rest, by simp, ⟨name, blanks, rfl, hname, hblanks⟩,
    by simp [Nat.add_assoc], ?_⟩
  cases name with
  | nil => exact absurd rfl hne
  | cons c name => simpa [hword c List.mem_cons_self] using hbound

theorem opener_of_opens (hf : Named function) {o : List Char} (ho : Opens function o)
    (hb : before.any isWord = false) (rest : List Char) :
    opener function ⟨before, o ++ rest⟩ = some ((), o.length) := by
  obtain ⟨name, blanks, rfl, hname, hblanks⟩ := ho
  obtain ⟨hne, hword⟩ := hf.word hname
  have happ : opener function ⟨before, name ++ (blanks ++ '(' :: rest)⟩ =
      some ((), name.length + blanks.length + 1) := by
    refine opener_append hname hblanks ?_
    cases name with
    | nil => exact absurd rfl hne
    | cons c name => simp [hb, hword c List.mem_cons_self]
  simpa [Nat.add_assoc] using happ

theorem opener_ne_zero (hf : Named function) {u : Unit} {n : Nat}
    (h : opener function ⟨before, text⟩ = some (u, n)) : 0 < n := by
  obtain ⟨o, rest, -, ⟨name, blanks, rfl, -, -⟩, rfl, -⟩ := opener_inv hf h
  simp only [List.length_append, List.length_singleton]
  omega

theorem opener_append_right (hf : Named function) {u : Unit} {n : Nat}
    (h : opener function ⟨before, text⟩ = some (u, n)) (rest : List Char) :
    opener function ⟨before, text ++ rest⟩ = some (u, n) := by
  obtain ⟨o, tail, rfl, ho, rfl, hb⟩ := opener_inv hf h
  rw [List.append_assoc]
  exact opener_of_opens hf ho hb _

private theorem append_cons_inj {d : Char} {q q' r r' : List Char} (h : q ++ d :: r = q' ++ d :: r')
    (hq : d ∉ q) (hq' : d ∉ q') : q = q' ∧ r = r' := by
  induction q generalizing q' with
  | nil =>
    cases q' with
    | nil => exact ⟨rfl, (List.cons.inj h).2⟩
    | cons c q' => exact absurd (List.cons.inj h).1 fun he => hq' (he ▸ List.mem_cons_self)
  | cons c q ih =>
    cases q' with
    | nil => exact absurd (List.cons.inj h).1 fun he => hq (he ▸ List.mem_cons_self)
    | cons c' q' =>
      obtain ⟨rfl, ht⟩ := List.cons.inj h
      obtain ⟨rfl, rfl⟩ := ih ht (fun hm => hq (List.mem_cons_of_mem _ hm)) fun hm =>
        hq' (List.mem_cons_of_mem _ hm)
      exact ⟨rfl, rfl⟩

private theorem name_inj {name name' blanks blanks' : List Char}
    (h : name ++ blanks = name' ++ blanks')
    (hn : name.getLast?.any isWord = true) (hn' : name'.getLast?.any isWord = true)
    (hb : blanks.all isBlank = true) (hb' : blanks'.all isBlank = true) :
    name = name' ∧ blanks = blanks' := by
  have hsolid : ∀ l : List Char, l.getLast?.any isWord = true →
      l.getLast?.any (fun c => !isBlank c) = true := by
    intro l hl
    cases he : l.getLast? with
    | none => simp [he] at hl
    | some c =>
      have hc : isWord c = true := by simpa [he] using hl
      cases hbc : isBlank c with
      | false => simp [hbc]
      | true => exact absurd (isWord_of_isBlank hbc) (by simp [hc])
  have ht := congrArg trimEnd h
  rw [trimEnd_append (hsolid _ hn), trimEnd_append (hsolid _ hn'), trimEnd_eq_nil hb, trimEnd_eq_nil hb',
    List.append_nil, List.append_nil] at ht
  subst ht
  exact ⟨rfl, List.append_cancel_left h⟩

/-- In front of the parenthesis of an opener no opener of a function ends whose name it does not
end with. -/
theorem opener_eq_of_opens (hf : Named function) (hg : Named other) {o : List Char}
    (ho : Opens other o)
    (hsuffix : ∀ a, a ≠ [] → function.map foldCase ≠ a ++ other.map foldCase)
    {x : List Char} (hx : x ≠ []) (rest : List Char) :
    opener function ⟨before, x ++ (o ++ rest)⟩ = opener function ⟨before, x⟩ := by
  cases hs : opener function ⟨before, x⟩ with
  | some r => exact opener_append_right hf hs _
  | none =>
    cases hl : opener function ⟨before, x ++ (o ++ rest)⟩ with
    | none => rfl
    | some r =>
      exfalso
      obtain ⟨u, n⟩ := r
      obtain ⟨-, rest', he, ⟨name, blanks, rfl, hname, hblanks⟩, -, hb⟩ := opener_inv hf hl
      obtain ⟨name', blanks', rfl, hname', hblanks'⟩ := ho
      have hp := Opens.notMem_paren hf hname hblanks
      have hp' := Opens.notMem_paren hg hname' hblanks'
      by_cases hx' : '(' ∈ x
      · -- The parenthesis stands in the text in front, and with it the whole opener.
        obtain ⟨q, r, rfl, hq⟩ := List.eq_append_cons_of_mem hx'
        obtain ⟨rfl, -⟩ := append_cons_inj (d := '(') (q := q) (by simpa using he) hq hp
        have hfound := opener_of_opens hf ⟨name, blanks, rfl, hname, hblanks⟩ hb r
        simp only [List.append_assoc, List.cons_append, List.nil_append] at hfound hs
        rw [hfound] at hs
        cases hs
      · -- It is that of the opener, and the text in front belongs to the name.
        obtain ⟨hq, -⟩ := append_cons_inj (d := '(') (q := x ++ (name' ++ blanks'))
          (by simpa using he) (by simp only [List.mem_append] at hp' ⊢; simp [hx', hp']) hp
        rw [← List.append_assoc] at hq
        obtain ⟨rfl, -⟩ := name_inj hq (hg.getLast?_append hname' x) (by simpa using hf.getLast?_append hname [])
          hblanks' hblanks
        refine hsuffix (x.map foldCase) (by simpa using hx) ?_
        rw [← hname, List.map_append, hname']

theorem opener_append_of_notMem (hf : Named function) {tail : List Char} (ht : '(' ∉ tail) :
    opener function ⟨before, text ++ tail⟩ = opener function ⟨before, text⟩ := by
  cases hs : opener function ⟨before, text⟩ with
  | some r => exact opener_append_right hf hs _
  | none =>
    cases ho : opener function ⟨before, text ++ tail⟩ with
    | none => rfl
    | some r =>
      exfalso
      obtain ⟨u, n⟩ := r
      obtain ⟨o, rest, he, hopens, -, hbound⟩ := opener_inv hf ho
      rcases List.append_eq_append_iff.1 he with ⟨x, hx, htail⟩ | ⟨x, rfl, -⟩
      · by_cases hnil : x = []
        · rw [hnil, List.append_nil] at hx
          have hsome := opener_of_opens hf hopens hbound []
          rw [List.append_nil, hx, hs] at hsome
          cases hsome
        · have hlast : o.getLast? = some '(' := by
            obtain ⟨name, spaces, rfl, -, -⟩ := hopens
            simp
          rw [hx, List.getLast?_append, List.getLast?_eq_some_getLast hnil, Option.some_or] at hlast
          rw [htail] at ht
          exact ht (List.mem_append_left _ (Option.some.inj hlast ▸ List.getLast_mem hnil))
      · rw [opener_of_opens hf hopens hbound] at hs
        cases hs

theorem confined_opener (hf : Named function) {d : Char} (hw : isWord d = false)
    (hb : isBlank d = false) (hp : d ≠ '(') : Scan.Confined d (opener function) := by
  have hd : foldCase d ∉ function.map foldCase := by
    intro hm
    obtain ⟨w, hwf, he⟩ := List.mem_map.1 hm
    have hwc := List.all_eq_true.1 hf.2 w hwf
    simp only [Bool.and_eq_true, decide_eq_true_eq] at hwc
    rw [isWord_of_foldCase_eq he.symm hwc.1 hwc.2] at hw
    exact absurd hw (by decide)
  exact (Scan.Confined.wordBoundary hw).bind fun _ => (Scan.Confined.letters hd).bind fun _ =>
    (Scan.Confined.run hb).bind fun _ => Scan.Confined.one (by simpa using hp)

end CallRule

theorem Literal.split_cases (text : List Char) :
    ((∀ commas depth, (Place.mk true depth).walk commas (Literal.split text).1 =
        some ⟨false, depth⟩) ∧ (Literal.split text).1.getLast? = some '\'') ∨
      (Literal.split text).2 = [] ∧ text.count '\'' % 2 = 0 := by
  fun_induction Literal.split text with
  | case1 => exact .inr ⟨rfl, rfl⟩
  | case2 rest ih =>
    rcases ih with ⟨hwalk, hlast⟩ | ⟨hrest, hcount⟩
    · refine .inl ⟨fun commas depth => hwalk commas depth, ?_⟩
      simp [List.getLast?_cons, hlast]
    · exact .inr ⟨hrest, by simpa [List.count_cons, Nat.add_assoc] using hcount⟩
  | case3 rest hne => exact .inl ⟨fun commas depth => rfl, rfl⟩
  | case4 c rest hne hc ih =>
    rcases ih with ⟨hwalk, hlast⟩ | ⟨hrest, hcount⟩
    · refine .inl ⟨fun commas depth => ?_, ?_⟩
      · rw [Place.walk_cons, show (Place.mk true depth).step commas c = some ⟨true, depth⟩ by
          simp [Place.step, hc]]
        exact hwalk commas depth
      · simp [List.getLast?_cons, hlast]
    · exact .inr ⟨hrest, by rwa [List.count_cons_of_ne hc]⟩

theorem Literal.split_closed {text : List Char} (h : text.count '\'' % 2 = 1) :
    (Literal.split text).1.getLast? = some '\'' ∧ Unquoted (Literal.split text).2 := by
  rcases Literal.split_cases text with ⟨hwalk, hlast⟩ | ⟨-, heven⟩
  · refine ⟨hlast, ?_⟩
    have hquoted := Place.walk_quoted (hwalk false 0)
    have hodd : (Literal.split text).1.count '\'' % 2 = 1 := by simpa using hquoted
    have hcount := congrArg (List.count '\'') (Literal.split_append text)
    unfold Unquoted
    rw [List.count_append] at hcount
    omega
  · omega

/-- A closed literal is cut off in the same way when more text follows, unless a quote follows at
once. -/
theorem Literal.split_append_of_closed {text : List Char} (h : text.count '\'' % 2 = 1) {rest : List Char}
    (hr : rest.head? = some '\'' → (Literal.split text).2 ≠ []) :
    Literal.split (text ++ rest) = ((Literal.split text).1, (Literal.split text).2 ++ rest) := by
  fun_induction Literal.split text with
  | case1 => simp at h
  | case2 tail ih =>
    rw [List.cons_append, List.cons_append, Literal.split,
      ih (by simpa [List.count_cons, Nat.add_assoc] using h) hr]
  | case3 tail hne =>
    rw [List.cons_append, Literal.split, if_pos rfl]
    rintro r - he
    cases tail with
    | nil => exact hr (by simp_all) rfl
    | cons c tail => exact hne tail rfl (by simp_all)
  | case4 c tail hne hc ih =>
    rw [List.cons_append, Literal.split, if_neg hc,
      ih (by rwa [List.count_cons_of_ne hc] at h) hr]
    rintro r he -
    exact hc he

namespace Token

/-- The tokens of a text depend on the character before it only for a word boundary. -/
theorem cut_beside (hf : Named function) {before' : Option Char}
    (hb : before.any isWord = before'.any isWord) (text : List Char) :
    cut function before text = cut function before' text := by
  have hc := CallRule.confined_opener hf (d := ')') (by decide) (by decide) (by decide)
  cases text with
  | nil => simp
  | cons c text => rw [cut, cut, hc.beside (c :: text) hb]

/-- The second text may follow the first: that ends outside literals, no quote comes to stand behind
another one, and no opener goes across. -/
private structure Joint (function x z : List Char) : Prop where
  unquoted : Unquoted x
  apart : z.head? = some '\'' → x.getLast? ≠ some '\''
  opener : ∀ b x', x' ≠ [] →
    CallRule.opener function ⟨b, x' ++ z⟩ = CallRule.opener function ⟨b, x'⟩

namespace Joint

variable {c : Char} {u x z : List Char}

private theorem behind (h : Joint function (u ++ x) z) (hx : Unquoted x) : Joint function x z where
  unquoted := hx
  apart hq hl := h.apart hq (by rw [List.getLast?_append, hl, Option.some_or])
  opener := h.opener

private theorem tail (h : Joint function (c :: x) z) (hc : c ≠ '\'') : Joint function x z :=
  h.behind (u := [c]) ((unquoted_cons hc).1 h.unquoted)

private theorem not_opener (h : Joint function (c :: x) z)
    (hplain : ∀ u n, CallRule.opener function ⟨before, c :: x⟩ ≠ some (u, n + 1)) (u : Unit) (n : Nat) :
    CallRule.opener function ⟨before, c :: (x ++ z)⟩ ≠ some (u, n + 1) :=
  fun he => hplain u n ((h.opener before (c :: x) (List.cons_ne_nil c x)).symm.trans he)

private theorem behind_opener (hf : Named function) {v : Unit} {n : Nat}
    (h : Joint function (c :: x) z)
    (hit : CallRule.opener function ⟨before, c :: x⟩ = some (v, n + 1)) :
    Joint function (x.drop n) z := by
  have hsplit : (c :: x).take (n + 1) ++ x.drop n = c :: x := List.take_append_drop (n + 1) (c :: x)
  have hquote := CallRule.quote_notMem_opener hf.isWord hit
  have hu := h.unquoted
  rw [← hsplit] at h
  refine h.behind ?_
  unfold Unquoted at hu ⊢
  rwa [← hsplit, List.count_append, List.count_eq_zero.2 hquote, Nat.zero_add] at hu

private theorem behind_literal (h : Joint function ('\'' :: x) z) :
    Joint function (Literal.split x).2 z ∧
      (z.head? = some '\'' → (Literal.split x).2 ≠ []) := by
  obtain ⟨hlast, hclosed⟩ := Literal.split_closed (unquoted_quote.1 h.unquoted)
  have hsplit : ('\'' :: (Literal.split x).1) ++ (Literal.split x).2 = '\'' :: x :=
    congrArg _ (Literal.split_append x)
  rw [← hsplit] at h
  refine ⟨h.behind hclosed, fun hq he => h.apart hq ?_⟩
  rw [he, List.append_nil, List.getLast?_cons, hlast]
  rfl

private theorem cut_append (hf : Named function) (h : Joint function x z) (before : Option Char) :
    cut function before (x ++ z) =
      cut function before x ++ cut function (x.getLast?.or before) z := by
  fun_induction cut function before x with
  | case1 before => rfl
  | case2 before c x u n hit ih =>
    have hsplit : (c :: x).take (n + 1) ++ x.drop n = c :: x := List.take_append_drop (n + 1) (c :: x)
    have hle : n ≤ x.length := Nat.le_of_succ_le_succ
      ((CallRule.confined_opener hf (d := ')') (by decide) (by decide) (by decide)).within hit)
    have hor : (c :: x).getLast?.or before = (x.drop n).getLast?.or (some '(') := by
      conv => lhs; rw [← hsplit]
      rw [List.getLast?_append, CallRule.getLast?_opener hit, Option.or_assoc, Option.some_or]
    have hit' : CallRule.opener function ⟨before, c :: (x ++ z)⟩ = some (u, n + 1) :=
      (h.opener before (c :: x) (List.cons_ne_nil c x)).trans hit
    rw [List.cons_append, cut_opener hit', List.drop_append_of_le_length hle,
      ih (h.behind_opener hf hit), hor, List.take_succ_cons, List.take_append_of_le_length hle]
    rfl
  | case3 before x hplain ih =>
    obtain ⟨hrest, hmore⟩ := h.behind_literal
    have hodd := unquoted_quote.1 h.unquoted
    have hor : ('\'' :: x).getLast?.or before = (Literal.split x).2.getLast?.or (some '\'') := by
      conv => lhs; rw [← Literal.split_append x]
      rw [Scan.getLast?_cons_or, List.getLast?_append, (Literal.split_closed hodd).1, Option.or_assoc,
        Option.some_or]
    rw [List.cons_append, cut_char (h.not_opener hplain), if_pos rfl,
      Literal.split_append_of_closed hodd hmore, ih hrest, hor]
    rfl
  | case4 before x hq hplain ih =>
    rw [List.cons_append, cut_char (h.not_opener hplain), if_neg hq, if_pos rfl, ih (h.tail hq),
      Scan.getLast?_cons_or]
    rfl
  | case5 before x hq hp hplain ih =>
    rw [List.cons_append, cut_char (h.not_opener hplain), if_neg hq, if_neg hp, if_pos rfl,
      ih (h.tail hq), Scan.getLast?_cons_or]
    rfl
  | case6 before c x hq hp hc hplain ih =>
    rw [List.cons_append, cut_char (h.not_opener hplain), if_neg hq, if_neg hp, if_neg hc,
      ih (h.tail hq), Scan.getLast?_cons_or]
    rfl

end Joint

/-- Every token in turn is cut off as it is without the text that follows. -/
theorem cut_append (hf : Named function) {x z : List Char} (hx : Unquoted x)
    (hz : z.head? = some '\'' → x.getLast? ≠ some '\'')
    (hseam : ∀ b x', x' ≠ [] → CallRule.opener function ⟨b, x' ++ z⟩ =
      CallRule.opener function ⟨b, x'⟩) (before : Option Char) :
    cut function before (x ++ z) =
      cut function before x ++ cut function (x.getLast?.or before) z :=
  Joint.cut_append hf ⟨hx, hz, hseam⟩ before

theorem opener_eq_none (hf : Named function) (h : text.head?.any Text.isWord = false) :
    CallRule.opener function ⟨before, text⟩ = none := by
  cases ho : CallRule.opener function ⟨before, text⟩ with
  | none => rfl
  | some r =>
    obtain ⟨u, n⟩ := r
    obtain ⟨o, rest, rfl, ⟨name, blanks, rfl, hname, -⟩, -, -⟩ := CallRule.opener_inv hf ho
    obtain ⟨hne, hword⟩ := hf.word hname
    cases name with
    | nil => exact absurd rfl hne
    | cons c name => exact absurd h (by simp [hword c List.mem_cons_self])

theorem cut_char_of_isWord (hf : Named function) {c : Char} (hc : Text.isWord c = false)
    (rest : List Char) :
    cut function before (c :: rest) =
      if c = '\'' then
        literal (c :: (Literal.split rest).1) :: cut function (some '\'') (Literal.split rest).2
      else if c = '(' then opening none :: cut function (some c) rest
      else if c = ')' then closing :: cut function (some c) rest
      else Token.other c :: cut function (some c) rest := by
  refine cut_char fun u n he => ?_
  rw [opener_eq_none hf (by simpa using hc)] at he
  cases he

theorem cut_before (hf : Named function) {c : Char} (hc : Text.isWord c = false)
    (before before' : Option Char) (rest : List Char) :
    cut function before (c :: rest) = cut function before' (c :: rest) := by
  rw [cut_char_of_isWord hf hc, cut_char_of_isWord hf hc]

theorem cut_closing (hf : Named function) (rest : List Char) :
    cut function before (')' :: rest) = closing :: cut function none rest := by
  have hb : (some ')').any Text.isWord = (none : Option Char).any Text.isWord := by decide
  rw [cut_char_of_isWord hf (by decide), if_neg (by decide), if_neg (by decide), if_pos rfl,
    cut_beside hf hb]

private theorem isWord_paren : (some '(').any Text.isWord = (none : Option Char).any Text.isWord := by
  decide

theorem cut_opens (hf : Named function) {o : List Char} (ho : Opens function o)
    (hb : before.any isWord = false) (rest : List Char) :
    cut function before (o ++ rest) = opening (some o) :: cut function none rest := by
  have hfound := CallRule.opener_of_opens hf ho hb rest
  have hpos := CallRule.opener_ne_zero hf hfound
  cases o with
  | nil => exact absurd hpos (by decide)
  | cons c o =>
    rw [List.cons_append] at hfound ⊢
    rw [cut_opener (n := o.length) hfound, List.drop_left, ← List.cons_append,
      List.take_left' (by simp), cut_beside hf isWord_paren]

private theorem cut_inside (hf : Named function) {word blanks : List Char}
    (hw : ∀ c ∈ word, Text.isWord c = true) (hb : blanks.all isBlank = true)
    (hbefore : word = [] ∨ before.any Text.isWord = true) (rest : List Char) :
    cut function before (word ++ (blanks ++ '(' :: rest)) =
      (word ++ blanks).map Token.other ++ opening none :: cut function none rest := by
  induction word generalizing before with
  | nil =>
    clear hbefore
    induction blanks generalizing before with
    | nil =>
      rw [List.nil_append, List.nil_append, cut_char_of_isWord hf (by decide), if_neg (by decide),
        if_pos rfl, cut_beside hf isWord_paren]
      rfl
    | cons c blanks ih =>
      obtain ⟨hc, hb⟩ : isBlank c = true ∧ blanks.all isBlank = true := by simpa using hb
      have hne : c ≠ '\'' ∧ c ≠ '(' ∧ c ≠ ')' := by
        refine ⟨?_, ?_, ?_⟩ <;> rintro rfl <;> exact absurd hc (by decide)
      have htail := @ih hb (some c)
      rw [List.nil_append] at htail ⊢
      rw [List.cons_append, cut_char_of_isWord hf (isWord_of_isBlank hc), if_neg hne.1,
        if_neg hne.2.1, if_neg hne.2.2, htail]
      rfl
  | cons c word ih =>
    obtain ⟨hc, hw⟩ := List.forall_mem_cons.1 hw
    have hne : c ≠ '\'' ∧ c ≠ '(' ∧ c ≠ ')' := by
      refine ⟨?_, ?_, ?_⟩ <;> rintro rfl <;> exact absurd hc (by decide)
    have hword := hbefore.resolve_left (List.cons_ne_nil c word)
    have hplain : ∀ u n, CallRule.opener function
        ⟨before, c :: (word ++ (blanks ++ '(' :: rest))⟩ ≠ some (u, n + 1) := by
      intro u n he
      obtain ⟨-, -, -, -, -, hb⟩ := CallRule.opener_inv hf he
      exact absurd hb (by simp [hword])
    rw [List.cons_append, cut_char hplain, if_neg hne.1, if_neg hne.2.1, if_neg hne.2.2,
      ih hw (.inr (by simpa using hc))]
    rfl

theorem cut_opens_other (hf : Named function) (hg : Named other)
    (hne : function.map foldCase ≠ other.map foldCase) {o : List Char} (ho : Opens other o)
    (rest : List Char) :
    cut function before (o ++ rest) =
      o.dropLast.map Token.other ++ opening none :: cut function none rest := by
  obtain ⟨name, blanks, rfl, hname, hblanks⟩ := ho
  obtain ⟨hnil, hword⟩ := hg.word hname
  rw [← List.append_assoc, List.dropLast_concat, List.append_assoc, List.append_assoc,
    List.singleton_append]
  cases name with
  | nil => exact absurd rfl hnil
  | cons c name =>
    obtain ⟨hc, hw⟩ := List.forall_mem_cons.1 hword
    have hneq : c ≠ '\'' ∧ c ≠ '(' ∧ c ≠ ')' := by
      refine ⟨?_, ?_, ?_⟩ <;> rintro rfl <;> exact absurd hc (by decide)
    have hplain : ∀ u n, CallRule.opener function
        ⟨before, c :: (name ++ (blanks ++ '(' :: rest))⟩ ≠ some (u, n + 1) := by
      intro u n he
      obtain ⟨-, rest', ho, ⟨name', blanks', rfl, hname', hblanks'⟩, -, -⟩ :=
        CallRule.opener_inv hf he
      obtain ⟨hq, -⟩ := CallRule.append_cons_inj (q := c :: name ++ blanks) (by simpa using ho)
        (Opens.notMem_paren hg hname hblanks) (Opens.notMem_paren hf hname' hblanks')
      obtain ⟨he, -⟩ := CallRule.name_inj hq (by simpa using hg.getLast?_append hname [])
        (by simpa using hf.getLast?_append hname' []) hblanks hblanks'
      exact hne (by rw [← hname', ← hname, he])
    rw [List.cons_append, cut_char hplain, if_neg hneq.1, if_neg hneq.2.1, if_neg hneq.2.2,
      cut_inside hf hw hblanks (.inr (by simpa using hc))]
    rfl

theorem cut_argument (hf : Named function) {arg : List Char} (h : Unquoted arg) (rest : List Char) :
    cut function none (arg ++ ')' :: rest) =
      cut function none arg ++ closing :: cut function none rest := by
  have hc := CallRule.confined_opener hf (d := ')') (by decide) (by decide) (by decide)
  rw [cut_append hf h (by simp) (fun b x _ => hc.stops b x rest), cut_closing hf]

/-- In front of a character that is no word character, tokens end if no opener goes on behind it. -/
theorem cut_append_cons (hf : Named function) {x z : List Char} {d : Char} (hx : Unquoted x)
    (hd : Text.isWord d = false) (hq : d ≠ '\'')
    (hseam : ∀ b x', x' ≠ [] → CallRule.opener function ⟨b, x' ++ d :: z⟩ =
      CallRule.opener function ⟨b, x'⟩) :
    cut function none (x ++ d :: z) = cut function none x ++ cut function none (d :: z) := by
  rw [cut_append hf hx (by simpa using fun he => absurd he hq) hseam, cut_before hf hd _ none]

theorem cut_separator (hf : Named function) {d : Char} (hw : Text.isWord d = false)
    (hb : isBlank d = false) (hd : d ≠ '\'' ∧ d ≠ '(' ∧ d ≠ ')') {x : List Char} (h : Unquoted x)
    (rest : List Char) :
    cut function none (x ++ d :: rest) =
      cut function none x ++ Token.other d :: cut function none rest := by
  have hc := CallRule.confined_opener hf hw hb hd.2.1
  have hbeside : (some d).any Text.isWord = (none : Option Char).any Text.isWord := by simp [hw]
  rw [cut_append_cons hf h hw hd.1 (fun b x _ => hc.stops b x rest), cut_char_of_isWord hf hw,
    if_neg hd.1, if_neg hd.2.1, if_neg hd.2.2, cut_beside hf hbeside]

theorem cut_comma (hf : Named function) {arg : List Char} (h : Unquoted arg) (rest : List Char) :
    cut function none (arg ++ ',' :: rest) =
      cut function none arg ++ Token.other ',' :: cut function none rest :=
  cut_separator hf (by decide) (by decide) (by decide) h rest

theorem cut_others (hf : Named function) {text : List Char}
    (h : ∀ c ∈ text, c ≠ '\'' ∧ c ≠ '(' ∧ c ≠ ')') :
    cut function before text = text.map Token.other := by
  induction text generalizing before with
  | nil => simp
  | cons c text ih =>
    obtain ⟨⟨hq, ho, hc⟩, ht⟩ := List.forall_mem_cons.1 h
    have hnone : CallRule.opener function ⟨before, [] ++ c :: text⟩ =
        CallRule.opener function ⟨before, []⟩ :=
      CallRule.opener_append_of_notMem hf fun hm => (h _ hm).2.1 rfl
    have hplain : ∀ u n, CallRule.opener function ⟨before, c :: text⟩ ≠ some (u, n + 1) := by
      intro u n he
      rw [List.nil_append, he, opener_eq_none hf (by rfl)] at hnone
      cases hnone
    rw [cut_char hplain, if_neg hq, if_neg ho, if_neg hc, ih ht]
    rfl

/-- White space is read as it is, and what follows it is read as if nothing stood in front. -/
theorem cut_blanks (hf : Named function) {blanks : List Char} (hb : blanks.all isBlank = true)
    (rest : List Char) : cut function none (blanks ++ rest) =
      blanks.map Token.other ++ cut function none rest := by
  induction blanks with
  | nil => rfl
  | cons c blanks ih =>
    obtain ⟨hc, hblanks⟩ : isBlank c = true ∧ blanks.all isBlank = true := by simpa using hb
    have hw : Text.isWord c = false := isWord_of_isBlank hc
    have hbeside : (some c).any Text.isWord = (none : Option Char).any Text.isWord := by simp [hw]
    rw [List.cons_append, cut_char_of_isWord hf hw, if_neg, if_neg, if_neg, cut_beside hf hbeside,
      ih hblanks]
    · rfl
    all_goals
      rintro rfl
      exact absurd hc (by decide)

theorem cut_trim (hf : Named function) {text : List Char} (h : Unquoted (trim text)) :
    ∃ lead trail, lead.all isBlank = true ∧ trail.all isBlank = true ∧
      text = lead ++ (trim text ++ trail) ∧ cut function none text =
        lead.map Token.other ++ (cut function none (trim text) ++ trail.map Token.other) := by
  obtain ⟨lead, trail, hl, ht, he⟩ := exists_trim text
  have hinert := inert_of_isBlank ht
  have hseam : ∀ b x, CallRule.opener function ⟨b, x ++ trail⟩ = CallRule.opener function ⟨b, x⟩ :=
    fun b x => CallRule.opener_append_of_notMem hf fun hm => (hinert _ hm).2.1 rfl
  have hquote : trail.head? = some '\'' → (trim text).getLast? ≠ some '\'' :=
    fun hh => absurd rfl (hinert _ (List.mem_of_head? hh)).1
  refine ⟨lead, trail, hl, ht, he, ?_⟩
  conv => lhs; rw [he]
  rw [cut_blanks hf hl, cut_append hf h hquote (fun b x _ => hseam b x),
    cut_others hf fun c hc => ⟨(hinert c hc).1, (hinert c hc).2.1, (hinert c hc).2.2.1⟩]

end Token

end ReportMigration.Sql
