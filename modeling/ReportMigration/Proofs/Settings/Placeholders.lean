import ReportMigration.Proofs.Text.Scanner
import ReportMigration.Settings.Environment

/-!
# What becomes of placeholders

A placeholder runs from its opening to the next closing brace. So a text is cut in one way, whatever
the environment, into placeholders and other characters, and each placeholder gives way to the value
of its variable or stays. An opening that nothing closes before the next one takes that into its name.
-/

namespace ReportMigration.Environment

open Text Scan

def opening : List Char :=
  "$\x7b".toList

def written (name : List Char) : List Char :=
  opening ++ (name ++ ['\x7d'])

def IsName (name : List Char) : Prop :=
  name ≠ [] ∧ '\x7d' ∉ name

/-- Behind the text an opening waits for its closing brace. -/
def Pending (text : List Char) : Prop :=
  ∃ front name, text = front ++ (opening ++ name) ∧ '\x7d' ∉ name

/-- A piece of a text with placeholders. -/
inductive Piece where
  | other (c : Char)
  | named (name : List Char)
deriving DecidableEq, Repr

namespace Piece

def text : Piece → List Char
  | other c => [c]
  | named name => written name

/-- What an environment puts in the place of a piece. -/
def value (env : Environment) : Piece → List Char
  | other c => [c]
  | named name => (env name).getD (written name)

end Piece

/-- The pieces of a text from left to right: a placeholder where one begins, and one character where
none does. -/
inductive Cut : List Char → List Piece → Prop
  | nil : Cut [] []
  | named {name rest : List Char} {pieces : List Piece} (hn : IsName name) (h : Cut rest pieces) :
      Cut (written name ++ rest) (.named name :: pieces)
  | other {c : Char} {rest : List Char} {pieces : List Piece}
      (hc : ∀ name tail, IsName name → c :: rest ≠ written name ++ tail) (h : Cut rest pieces) :
      Cut (c :: rest) (.other c :: pieces)

variable {env : Environment} {name name' text front back tail tail' : List Char} {pieces pieces' : List Piece}

theorem takeWhile_name (hn : '\x7d' ∉ name) (tail : List Char) :
    (name ++ '\x7d' :: tail).takeWhile (· != '\x7d') = name := by
  have hall : ∀ c ∈ name, (c != '\x7d') = true := by
    intro c hc
    refine bne_iff_ne.2 ?_
    rintro rfl
    exact hn hc
  rw [List.takeWhile_append_of_pos hall, List.takeWhile_cons_of_neg (by decide), List.append_nil]

theorem written_append (name tail : List Char) :
    written name ++ tail = '$' :: '\x7b' :: (name ++ '\x7d' :: tail) := by
  simp [written, opening]

theorem written_inj (hn : '\x7d' ∉ name) (hn' : '\x7d' ∉ name')
    (h : written name ++ tail = written name' ++ tail') : name = name' ∧ tail = tail' := by
  simp only [written_append, List.cons.injEq, true_and] at h
  obtain rfl : name = name' := by rw [← takeWhile_name hn tail, h, takeWhile_name hn']
  exact ⟨rfl, by simpa using h⟩

theorem Cut.text_eq (h : Cut text pieces) : pieces.flatMap Piece.text = text := by
  induction h with
  | nil => rfl
  | named hn h ih => rw [List.flatMap_cons, ih, Piece.text]
  | other hc h ih => rw [List.flatMap_cons, ih]; rfl

theorem Cut.unique (h : Cut text pieces) (h' : Cut text pieces') : pieces = pieces' := by
  induction h generalizing pieces' with
  | nil => cases h' with | nil => rfl
  | @named name rest pieces hn h ih =>
    generalize htext : written name ++ rest = text at h'
    cases h' with
    | nil => cases htext
    | named hn' h' =>
      obtain ⟨rfl, rfl⟩ := written_inj hn.2 hn'.2 htext
      rw [ih h']
    | other hc h' => exact absurd htext.symm (hc _ _ hn)
  | @other c rest pieces hc h ih =>
    generalize htext : c :: rest = text at h'
    cases h' with
    | nil => cases htext
    | named hn' h' => exact absurd htext (hc _ _ hn')
    | other hc' h' =>
      obtain ⟨rfl, rfl⟩ := List.cons.inj htext
      rw [ih h']

theorem exists_cut (text : List Char) : ∃ pieces, Cut text pieces := by
  induction hlen : text.length using Nat.strongRecOn generalizing text with
  | ind n ih =>
    subst hlen
    by_cases hbegins : ∃ name rest, IsName name ∧ text = written name ++ rest
    · obtain ⟨name, rest, hn, rfl⟩ := hbegins
      obtain ⟨pieces, h⟩ := ih rest.length (by simp [written, opening]; omega) rest rfl
      exact ⟨_, .named hn h⟩
    · cases text with
      | nil => exact ⟨[], .nil⟩
      | cons c rest =>
        obtain ⟨pieces, h⟩ := ih rest.length (by simp) rest rfl
        exact ⟨_, .other (fun name tail hn he => hbegins ⟨name, tail, hn, he⟩) h⟩

theorem yields_placeholder : Yields placeholder fun name t => IsName name ∧ t = written name := by
  have hrun : Yields (run₁ (· != '\x7d')) fun _ t => t ≠ [] ∧ '\x7d' ∉ t := by
    intro c u n h
    have hall := yields_run₁ _ _ _ _ h
    obtain ⟨hn, hpos⟩ := run₁_eq_some.1 h
    refine ⟨fun hnil => ?_, fun hm => by simpa using List.all_eq_true.1 hall _ hm⟩
    have hle := (List.takeWhile_prefix (l := c.ahead) (· != '\x7d')).length_le
    rcases List.take_eq_nil_iff.1 hnil with h0 | h0
    · omega
    · rw [h0] at hn
      exact hpos.ne' hn
  refine ((yields_one _).bind fun _ => (yields_one _).bind fun _ => hrun.written.bind fun name =>
    (yields_one _).bind fun _ => yields_pure name).mono ?_
  rintro name _ ⟨-, _, _, rfl, ⟨c, rfl, hc⟩, -, _, _, rfl, ⟨d, rfl, hd⟩, read, _, _, rfl,
    ⟨rfl, -, hname⟩, -, _, _, rfl, ⟨e, rfl, he⟩, rfl, rfl⟩
  obtain rfl : c = '$' := by simpa using hc
  obtain rfl : d = '\x7b' := by simpa using hd
  obtain rfl : e = '\x7d' := by simpa using he
  exact ⟨hname, by simp [written, opening]⟩

theorem placeholder_written (b : Option Char) (hn : IsName name) (rest : List Char) :
    placeholder ⟨b, written name ++ rest⟩ = some (name, (written name).length) := by
  rw [written_append]
  refine bind_eq_some.2 ⟨(), 1, _, rfl, bind_eq_some.2 ⟨(), 1, _, rfl, bind_eq_some.2
    ⟨name, name.length, _, ?_, bind_eq_some.2 ⟨(), 1, 0, ?_, rfl, rfl⟩, rfl⟩, rfl⟩, ?_⟩
  · refine Option.map_eq_some_iff.2 ⟨((), name.length), run₁_eq_some.2 ⟨?_, ?_⟩, ?_⟩
    · simp [Cursor.advance, takeWhile_name hn.2]
    · exact List.length_pos_iff.2 hn.1
    · simp [Cursor.advance]
  · simp [Cursor.advance, Scan.one]
  · simp [written, opening]
    omega

theorem map_apply {α β : Type} (f : α → β) (p : Scan α) (c : Cursor) :
    (f <$> p) c = (p c).map fun (a, n) => (f a, n) := by
  change (p >>= fun a => (pure (f a) : Scan β)) c = _
  rw [bind_apply]
  cases p c with
  | none => rfl
  | some r => rfl

theorem valueOf_eq (env : Environment) (name : List Char) :
    valueOf env name = (Piece.named name).value env := by
  rw [valueOf, Piece.value, written, ← List.append_assoc]
  rfl

theorem Cut.expand_eq (h : Cut text pieces) (env : Environment) :
    expand env text = pieces.flatMap (Piece.value env) := by
  suffices hfrom : ∀ b, (segmentsFrom (valueOf env <$> placeholder) 0 b text).flatMap
      Segment.replaced = pieces.flatMap (Piece.value env) from hfrom none
  induction h with
  | nil => exact fun _ => rfl
  | @named name rest pieces hn h ih =>
    intro b
    have hread : (valueOf env <$> placeholder) ⟨b, written name ++ rest⟩ =
        some ((Piece.named name).value env, (written name).length) := by
      rw [map_apply, placeholder_written b hn, ← valueOf_eq]
      rfl
    rw [segmentsFrom_append_hit (by simp [written, opening]) hread, List.flatMap_cons, ih,
      List.flatMap_cons]
    rfl
  | @other c rest pieces hc h ih =>
    intro b
    have hplain : ∀ a n, (valueOf env <$> placeholder) ⟨b, c :: rest⟩ ≠ some (a, n + 1) := by
      intro a n hread
      rw [map_apply] at hread
      obtain ⟨⟨name, m⟩, hread, -⟩ := Option.map_eq_some_iff.1 hread
      obtain ⟨hn, htake⟩ := yields_placeholder _ _ _ hread
      refine hc name ((c :: rest).drop m) hn ?_
      rw [← htake, List.take_append_drop]
    rw [segmentsFrom_plain hplain, List.flatMap_cons, ih, List.flatMap_cons]
    rfl

theorem Pending.append_left (h : Pending text) (front : List Char) : Pending (front ++ text) := by
  obtain ⟨before, name, rfl, hname⟩ := h
  exact ⟨front ++ before, name, by simp, hname⟩

theorem Cut.append (h : Cut front pieces) (h' : Cut back pieces') (hn : IsName name)
    (hfront : ¬ Pending front) :
    Cut (front ++ (written name ++ back)) (pieces ++ .named name :: pieces') := by
  induction h with
  | nil => exact .named hn h'
  | @named name' rest pieces hn' h ih =>
    rw [List.append_assoc]
    exact .named hn' (ih fun hp => hfront (hp.append_left _))
  | @other c rest pieces hc h ih =>
    rw [List.cons_append, List.cons_append]
    refine .other ?_ (ih fun hp => hfront (hp.append_left [c]))
    intro name' tail hn' he
    rw [written_append name', List.cons.injEq] at he
    obtain ⟨rfl, he⟩ := he
    cases rest with
    | nil => simp [written_append] at he
    | cons d rest =>
      rw [List.cons_append, List.cons.injEq] at he
      obtain ⟨rfl, he⟩ := he
      by_cases hclose : '\x7d' ∈ rest
      · -- The name would end in front of the placeholder, and begin one there already.
        obtain ⟨first, last, rfl, hfirst⟩ := List.eq_append_cons_of_mem hclose
        have hname : first = name' := by
          rw [List.append_assoc, List.cons_append] at he
          rw [← takeWhile_name hfirst, he, takeWhile_name hn'.2]
        exact hc name' last hn' (by rw [written_append, hname])
      · exact hfront ⟨[], rest, rfl, hclose⟩

theorem Pending.exists_first (h : Pending text) :
    ∃ front name, text = front ++ (opening ++ name) ∧ '\x7d' ∉ name ∧ ¬ Pending front := by
  induction hlen : text.length using Nat.strongRecOn generalizing text with
  | ind n ih =>
    subst hlen
    obtain ⟨front, name, rfl, hname⟩ := h
    by_cases hfront : Pending front
    · obtain ⟨first, name', rfl, hname', hfirst⟩ :=
        ih front.length (by simp [opening]) hfront rfl
      refine ⟨first, name' ++ (opening ++ name), by simp, ?_, hfirst⟩
      simpa [opening, hname'] using hname
    · exact ⟨front, name, rfl, hname, hfront⟩

theorem expand_named (env : Environment) (hn : IsName name) (hfront : ¬ Pending front)
    (back : List Char) :
    expand env (front ++ (written name ++ back)) =
      expand env front ++ ((Piece.named name).value env ++ expand env back) := by
  obtain ⟨pieces, h⟩ := exists_cut front
  obtain ⟨pieces', h'⟩ := exists_cut back
  rw [(h.append h' hn hfront).expand_eq, h.expand_eq, h'.expand_eq, List.flatMap_append,
    List.flatMap_cons]

/-- A text is cut in one way, whatever the environment, into placeholders and characters that begin
none. The value of a variable that is set takes the place of its placeholder, and all else stays in
place. A placeholder in the text is cut off as it stands if no opening waits in front of it. Else it is
the end of the one that begins at the first opening that waits. -/
theorem expand_pieces (text : List Char) :
    (∃ pieces, Cut text pieces ∧ (∀ pieces', Cut text pieces' → pieces = pieces') ∧
      ∀ env, expand env text = pieces.flatMap (Piece.value env)) ∧
    ∀ front name back, text = front ++ (written name ++ back) → IsName name →
      (¬ Pending front → ∀ env, expand env text =
        expand env front ++ ((Piece.named name).value env ++ expand env back)) ∧
      (Pending front → ∃ before inside, front = before ++ (opening ++ inside) ∧ '\x7d' ∉ inside ∧
        ¬ Pending before ∧ ∀ env, expand env text = expand env before ++
          ((Piece.named (inside ++ (opening ++ name))).value env ++ expand env back)) := by
  refine ⟨?_, ?_⟩
  · obtain ⟨pieces, h⟩ := exists_cut text
    exact ⟨pieces, h, fun pieces' h' => h.unique h', h.expand_eq⟩
  · rintro front name back rfl hn
    refine ⟨fun hfront env => expand_named env hn hfront back, fun hfront => ?_⟩
    obtain ⟨before, inside, rfl, hinside, hbefore⟩ := hfront.exists_first
    refine ⟨before, inside, rfl, hinside, hbefore, fun env => ?_⟩
    have hlong : IsName (inside ++ (opening ++ name)) := by
      refine ⟨by simp [opening], ?_⟩
      simpa [opening, hinside] using hn.2
    have htext : before ++ (opening ++ inside) ++ (written name ++ back) =
        before ++ (written (inside ++ (opening ++ name)) ++ back) := by
      simp [written]
    rw [htext, expand_named env hlong hbefore]

/-- A placeholder on its own, and one behind an opening that waits. -/
theorem expand_pieces_root :
    (IsName "ROOT".toList ∧ ¬ Pending "root=".toList ∧ ∀ env,
      expand env "root=$\x7bROOT\x7d!".toList = expand env "root=".toList ++
        ((Piece.named "ROOT".toList).value env ++ expand env ['!'])) ∧
    (Pending "$\x7bx ".toList ∧ ∃ before inside,
      "$\x7bx ".toList = before ++ (opening ++ inside) ∧ '\x7d' ∉ inside ∧ ¬ Pending before ∧
        ∀ env, expand env "$\x7bx $\x7bROOT\x7d".toList = expand env before ++
          ((Piece.named (inside ++ (opening ++ "ROOT".toList))).value env ++ expand env [])) := by
  have hn : IsName "ROOT".toList := ⟨by decide, by decide⟩
  have hfront : ¬ Pending "root=".toList := by
    rintro ⟨front, name, he, -⟩
    have hmem : '$' ∈ "root=".toList := by
      rw [he]
      simp [opening]
    exact absurd hmem (by decide)
  have hpending : Pending "$\x7bx ".toList := ⟨[], "x ".toList, rfl, by decide⟩
  exact ⟨⟨hn, hfront, ((expand_pieces _).2 _ _ ['!'] rfl hn).1 hfront⟩,
    hpending, ((expand_pieces _).2 _ _ [] rfl hn).2 hpending⟩

/-- An opening that waits keeps the value of a variable that is set from the text. -/
theorem not_expand_named :
    ¬ ∀ (env : Environment) (front name back value : List Char), name ≠ [] →
      (∀ c ∈ name, c ≠ '$' ∧ c ≠ '\x7b' ∧ c ≠ '\x7d') → env name = some value →
        ∃ before after, expand env (front ++ (written name ++ back)) = before ++ (value ++ after) := by
  intro h
  obtain ⟨before, after, he⟩ := h (ofList [("ROOT", "/srv")]) "$\x7b ".toList "ROOT".toList []
    "/srv".toList (by decide) (by simp) (by decide +kernel)
  have hmem : '/' ∈ before ++ ("/srv".toList ++ after) := by simp
  rw [← he] at hmem
  exact absurd hmem (by decide +kernel)

end ReportMigration.Environment
