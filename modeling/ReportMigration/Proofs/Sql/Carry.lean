import ReportMigration.Proofs.Sql.Transform

/-!
# Carrying a plug

A rule that has written a plug somewhere reads on, closes the parentheses around it and puts other
text in the place of the calls that they belong to. `foldl_plug` says that in the end the plug stands
between two texts that do not depend on it, and that neither does whether a call was replaced.
-/

namespace ReportMigration.Sql

open Text Token

/-- What is written in front of an open parenthesis ends outside literals, and so does the text that
opens it. -/
structure CallRule.Frame.Sound (f : CallRule.Frame) : Prop where
  before : Unquoted f.before
  opener : Unquoted (f.opener.getD ['('])
  last : (f.opener.getD ['(']).getLast? = some '('

/-- Everything that is written ends outside literals. -/
structure CallRule.State.Sound (s : CallRule.State) : Prop where
  frames : ∀ f ∈ s.frames, f.Sound
  written : Unquoted s.written

theorem unquoted_reverse {text : List Char} : Unquoted text.reverse ↔ Unquoted text := by
  unfold Unquoted
  rw [List.count_reverse]

namespace CallRule

variable {rule : CallRule} {s : State} {before : Option Char}

theorem unquoted_of_mem_split {text arg : List Char} (h : Unquoted text)
    (ha : arg ∈ Arguments.split text) : Unquoted arg := by
  obtain ⟨piece, hp, rfl⟩ := List.mem_map.1 ha
  obtain ⟨lead, trail, hl, ht, he⟩ := exists_trim piece
  have hu := Arguments.unquoted_of_mem_pieces h hp
  have hlead := (inert_of_isBlank hl).neutral.unquoted
  have htrail := (inert_of_isBlank ht).neutral.unquoted
  unfold Unquoted at *
  rw [he, List.count_append, List.count_append] at hu
  omega

theorem unquoted_settled (ht : Tidy rule.transform) {opener : Option (List Char)}
    (ho : Unquoted (opener.getD ['('])) {inside : List Char} (hi : Unquoted inside) :
    Unquoted (rule.settled opener inside) := by
  rw [settled]
  cases hr : rule.replacement opener inside with
  | none => exact unquoted_append (unquoted_append ho hi) rfl
  | some text =>
    obtain ⟨o, rfl, he⟩ := Option.bind_eq_some_iff.1 hr
    exact ht.unquoted (fun a ha => unquoted_of_mem_split hi ha) he

theorem State.Sound.readToken (ht : Tidy rule.transform) (hf : Named rule.function)
    (hs : s.Sound) {t : Token} (h : t.Regular rule.function before) : (rule.readToken s t).Sound := by
  cases t with
  | literal text =>
    exact ⟨hs.frames, unquoted_append (unquoted_reverse.2 h.1.closed.unquoted) hs.written⟩
  | other c => exact ⟨hs.frames, (unquoted_cons h.1).2 hs.written⟩
  | opening opener =>
    refine ⟨?_, unquoted_nil⟩
    intro f hm
    rcases List.mem_cons.1 hm with rfl | hm
    · exact ⟨hs.written, h.unquoted hf, h.getLast?_opening⟩
    · exact hs.frames f hm
  | closing =>
    rw [CallRule.readToken]
    cases hfr : s.frames with
    | nil =>
      rw [close_nil hfr]
      exact ⟨hs.frames, (unquoted_cons (by decide)).2 hs.written⟩
    | cons f frames =>
      have hsound : f.Sound := hs.frames f (hfr ▸ List.mem_cons_self)
      rw [close_cons hfr]
      refine ⟨fun g hg => hs.frames g (hfr ▸ List.mem_cons_of_mem _ hg), ?_⟩
      exact unquoted_append (unquoted_reverse.2 (unquoted_settled ht hsound.opener
        (unquoted_reverse.2 hs.written))) hsound.before

theorem State.Sound.foldl (ht : Tidy rule.transform) (hf : Named rule.function) {ts : List Token}
    (h : RegularFrom rule.function before ts) (hs : s.Sound) :
    (ts.foldl rule.readToken s).Sound := by
  induction ts generalizing s before with
  | nil => exact hs
  | cons t ts ih => exact ih h.2 (hs.readToken ht hf h.1)

/-- How the text in front of a place may end when a rule has read it, in terms of how it ended. Only
behind a call that was replaced does it end like the replacement. -/
def Turns (rule : CallRule) (e e' : Ending) : Prop :=
  e' = e ∨ e' = .free ∨
    e = .closing ∧ ∃ args text, rule.transform args = some text ∧ ending text = e'

/-- What is written behind the last open parenthesis ends like the text that was read, unless it ends
with a call or with nothing. -/
theorem turns_foldl (ht : Tidy rule.transform) {ts : List Token}
    (h : RegularFrom rule.function before ts) :
    Turns rule (ending (ts.flatMap Token.source))
      (ending (ts.foldl rule.readToken ⟨[], [], false, false⟩).written.reverse) := by
  rcases List.eq_nil_or_concat ts with rfl | ⟨us, t, rfl⟩
  · exact .inl rfl
  · rw [List.concat_eq_append] at h
    have hregular := (regularFrom_append.1 h).2.1
    simp only [List.concat_eq_append, List.foldl_append, List.foldl_cons, List.foldl_nil,
      List.flatMap_append, List.flatMap_cons, List.flatMap_nil, List.append_nil]
    cases t with
    | literal text =>
      refine .inl ?_
      have hne : text ≠ [] := by
        rintro rfl
        exact absurd hregular.2 (by decide)
      rw [readToken, State.write, List.reverse_append, List.reverse_reverse, Token.source,
        ending_append _ hne, ending_append _ hne]
    | other c =>
      refine .inl ?_
      rw [readToken, State.copy, List.reverse_cons, Token.source, ending_append _ (by simp),
        ending_append _ (by simp)]
    | opening opener => exact .inr (.inl rfl)
    | closing =>
      have hclosing : ending [')'] = .closing := by decide +kernel
      rw [Token.source, ending_append _ (by simp), hclosing, readToken]
      generalize us.foldl rule.readToken ⟨[], [], false, false⟩ = s
      cases hfr : s.frames with
      | nil =>
        refine .inl ?_
        rw [close_nil hfr, State.copy, List.reverse_cons, ending_append _ (by simp), hclosing]
      | cons f frames =>
        rw [close_cons hfr]
        simp only [List.reverse_append, List.reverse_reverse]
        rw [settled]
        cases hr : rule.replacement f.opener s.written.reverse with
        | none =>
          refine .inl ?_
          rw [Option.getD_none, ← List.append_assoc, ending_append _ (by simp), hclosing]
        | some text =>
          obtain ⟨o, ho, he⟩ := Option.bind_eq_some_iff.1 hr
          refine .inr (.inr ⟨rfl, _, text, he, ?_⟩)
          rw [Option.getD_some, ending_append _ (ht.tight he).ne_nil]

/-- The text in front of what is written inside the innermost of the open parentheses. -/
def opened (frames : List Frame) : List Char :=
  (frames.foldl (fun inside f => f.keep inside) []).reverse

private theorem foldl_keep (frames : List Frame) (inside : List Char) :
    frames.foldl (fun inside f => f.keep inside) inside =
      inside ++ frames.foldl (fun inside f => f.keep inside) [] := by
  induction frames generalizing inside with
  | nil => simp
  | cons f frames ih =>
    rw [List.foldl_cons, List.foldl_cons, ih, ih (f.keep [])]
    simp [Frame.keep]

theorem State.text_eq (s : State) : s.text = opened s.frames ++ s.written.reverse := by
  rw [State.text, foldl_keep, List.reverse_append]
  rfl

theorem opened_cons (f : Frame) (frames : List Frame) :
    opened (f :: frames) = opened frames ++ (f.before.reverse ++ f.opener.getD ['(']) := by
  rw [opened, List.foldl_cons, foldl_keep, List.reverse_append]
  simp [opened, Frame.keep]

theorem unquoted_opened {frames : List Frame} (h : ∀ f ∈ frames, f.Sound) :
    Unquoted (opened frames) := by
  induction frames with
  | nil => exact unquoted_nil
  | cons f frames ih =>
    obtain ⟨hf, hfs⟩ := List.forall_mem_cons.1 h
    rw [opened_cons]
    exact unquoted_append (ih hfs) (unquoted_append (unquoted_reverse.2 hf.before) hf.opener)

private theorem ending_opener {opener : Option (List Char)}
    (h : (opener.getD ['(']).getLast? = some '(') : ending (opener.getD ['(']) = .free := by
  rw [ending, h]
  decide +kernel

theorem ending_opened {frames : List Frame} (h : ∀ f ∈ frames, f.Sound) :
    ending (opened frames) = .free := by
  cases frames with
  | nil => rfl
  | cons f frames =>
    have hl := (h f List.mem_cons_self).last
    have hne : f.opener.getD ['('] ≠ [] := by
      intro he
      rw [he] at hl
      cases hl
    rw [opened_cons, ending_append _ (by simp [hne]), ending_append _ hne, ending_opener hl]

theorem ending_append_of_free {front : List Char} (hf : ending front = .free) (text : List Char) :
    ending (front ++ text) = ending text := by
  cases text with
  | nil => rw [List.append_nil, hf]; rfl
  | cons c text => exact ending_append _ (List.cons_ne_nil c text)

private theorem ending_last_piece {text last : List Char} {args : List (List Char)}
    (h : Arguments.pieces text = args ++ [last]) : ending last = ending text := by
  have ht := Arguments.text_cut ⟨false, 0⟩ text
  rw [Arguments.pieces] at h
  cases args with
  | nil =>
    obtain ⟨h₁, h₂⟩ := List.cons.inj h
    rw [h₁, h₂] at ht
    simpa using congrArg ending ht
  | cons a args =>
    obtain ⟨h₁, h₂⟩ := List.cons.inj h
    rw [h₁, h₂] at ht
    rw [← ht, List.append_eq, List.flatMap_append, ← List.append_assoc]
    have hcomma : ending [','] = .free := by decide +kernel
    have he := ending_append (a ++ args.flatMap fun piece => ',' :: piece)
      (List.cons_ne_nil ',' last)
    simp only [List.flatMap_cons, List.flatMap_nil, List.append_nil]
    rw [he, ← List.singleton_append, ending_append_of_free hcomma]

variable {e : Ending} {plug : List Char → Prop}

theorem settled_plug (hc : Carries e plug rule.transform) (hplug : ∀ t, plug t → Item t)
    {opener : Option (List Char)} (ho : Unquoted (opener.getD ['(']))
    (hl : (opener.getD ['(']).getLast? = some '(') {front : List Char} (hf : Unquoted front)
    (he : ending front = e) (back : List Char) :
    ∃ front' back' replaced, front' ≠ [] ∧ Unquoted front' ∧ ending front' = e ∧ ∀ t, plug t →
      rule.settled opener (front ++ (t ++ back)) = front' ++ (t ++ back') ∧
        (rule.replacement opener (front ++ (t ++ back))).isSome = replaced := by
  have hkeep : opener.getD ['('] ++ front ≠ [] ∧ Unquoted (opener.getD ['('] ++ front) ∧
      ending (opener.getD ['('] ++ front) = e := by
    refine ⟨?_, unquoted_append ho hf, ?_⟩
    · intro h
      rw [(List.append_eq_nil_iff.1 h).1] at hl
      cases hl
    · rw [ending_append_of_free (ending_opener hl), he]
  cases opener with
  | none =>
    exact ⟨_, back ++ [')'], false, hkeep.1, hkeep.2.1, hkeep.2.2, fun t _ => by
      simp [settled, replacement]⟩
  | some o =>
    obtain ⟨args, last, depth, hpieces, happ⟩ := Arguments.exists_pieces_append hf
    have hsplit : ∀ t, plug t → Arguments.split (front ++ (t ++ back)) =
        args.map trim ++ trim (last ++ (t ++ (Arguments.cut false depth back).1)) ::
          (Arguments.cut false depth back).2.map trim := by
      intro t ht
      rw [Arguments.split, happ, Arguments.cut_item (hplug t ht)]
      simp [Arguments.prepend]
    have hlast : Unquoted last :=
      Arguments.unquoted_of_mem_pieces hf (hpieces ▸ List.mem_append_right _ List.mem_cons_self)
    have hargs : ∀ a ∈ args.map trim, Unquoted a := by
      intro a ha
      refine unquoted_of_mem_split hf ?_
      rw [Arguments.split, hpieces, List.map_append]
      exact List.mem_append_left _ ha
    rcases hc (args.map trim) ((Arguments.cut false depth back).2.map trim) last
      (Arguments.cut false depth back).1 hargs hlast ((ending_last_piece hpieces).trans he) with
      hnone | ⟨front', back', hne, hu, hend, hsome⟩
    · refine ⟨_, back ++ [')'], false, hkeep.1, hkeep.2.1, hkeep.2.2, fun t ht => ?_⟩
      rw [settled, replacement, Option.bind_some, hsplit t ht, hnone t ht]
      simp
    · refine ⟨front', back', true, hne, hu, hend, fun t ht => ?_⟩
      rw [settled, replacement, Option.bind_some, hsplit t ht, hsome t ht]
      exact ⟨rfl, rfl⟩

/-- Closing the innermost parenthesis around a plug leaves it between two texts that do not depend on
it. -/
private theorem close_plug (hc : Carries e plug rule.transform) (hplug : ∀ t, plug t → Item t)
    {frames : List Frame} (hframes : ∀ f ∈ frames, f.Sound) {front : List Char} (hf : Unquoted front)
    (he : ending front = e) (back : List Char) (inside : Forest) :
    ∃ frames' front' back' replaced, (∀ f ∈ frames', f.Sound) ∧ Unquoted front' ∧
      ending front' = e ∧ ∀ t, plug t → ∀ q r,
        rule.close ((State.mk frames (front ++ (t ++ back)).reverse q r).settle
          (inside.evaluate rule) (inside.replacements rule)) =
            ⟨frames', (front' ++ (t ++ back')).reverse, q, r || replaced⟩ := by
  cases frames with
  | nil =>
    refine ⟨[], front, back ++ (inside.evaluate rule ++ [')']),
      decide (0 < inside.replacements rule), hframes, hf, he, fun t _ q r => ?_⟩
    rw [close_nil rfl]
    simp [State.settle, State.write, State.copy]
  | cons g frames =>
    obtain ⟨hg, hgs⟩ := List.forall_mem_cons.1 hframes
    obtain ⟨front', back', replaced, hne, hu, hend, hsettled⟩ := settled_plug hc hplug hg.opener
      hg.last hf he (back ++ inside.evaluate rule)
    refine ⟨frames, g.before.reverse ++ front', back', decide (0 < inside.replacements rule) || replaced,
      hgs, unquoted_append (unquoted_reverse.2 hg.before) hu, (ending_append _ hne).trans hend,
      fun t ht q r => ?_⟩
    obtain ⟨hs, hr⟩ := hsettled t ht
    have hwritten : ((State.mk (g :: frames) (front ++ (t ++ back)).reverse q r).settle
        (inside.evaluate rule) (inside.replacements rule)).written.reverse =
        front ++ (t ++ (back ++ inside.evaluate rule)) := by
      simp [State.settle, State.write]
    rw [close_cons (f := g) rfl, hwritten, hs, hr, State.settle_replaced, Bool.or_assoc]
    simp [State.settle, State.write]

/-- Reading on behind a plug, whatever parentheses are closed around it, the text is in the end the
plug between two others, and calls are replaced or not whatever the plug is. -/
theorem foldl_plug (hc : Carries e plug rule.transform) (hplug : ∀ t, plug t → Item t)
    (ts : List Token) {frames : List Frame} (hframes : ∀ f ∈ frames, f.Sound) {front : List Char}
    (hf : Unquoted front) (he : ending front = e) (back : List Char) :
    ∃ front' back' replaced, Unquoted front' ∧ ending front' = e ∧ ∀ t, plug t → ∀ q r,
      let last := ts.foldl rule.readToken ⟨frames, (front ++ (t ++ back)).reverse, q, r⟩
      last.text = front' ++ (t ++ back') ∧ last.replaced = (r || replaced) := by
  rw [← Reading.tokens_ofTokens ts]
  obtain ⟨strays, middle, unclosed⟩ := Reading.ofTokens ts
  -- Each stray parenthesis closes one around the plug, or goes with the text behind it.
  induction strays generalizing frames front back with
  | nil =>
    refine ⟨opened frames ++ front, back ++ (middle.evaluate rule ++ unclosed.flatMap fun u =>
      u.1.getD ['('] ++ u.2.evaluate rule), decide (0 < middle.replacements rule) ||
        decide (0 < (unclosed.map fun u => u.2.replacements rule).sum),
      unquoted_append (unquoted_opened hframes) hf,
      (ending_append_of_free (ending_opened hframes) front).trans he, fun t _ q r => ?_⟩
    obtain ⟨htext, hreplaced⟩ := foldl_tokens_unclosed rule unclosed
      ((State.mk frames (front ++ (t ++ back)).reverse q r).settle (middle.evaluate rule)
        (middle.replacements rule))
    rw [Reading.tokens, List.flatMap_nil, List.nil_append, List.foldl_append, foldl_tokens_forest]
    refine ⟨htext.trans ?_, hreplaced.trans ?_⟩
    · rw [State.text_eq]
      simp [State.write, State.settle]
    · rw [State.settle_replaced, Bool.or_assoc]
  | cons f strays ih =>
    obtain ⟨frames₁, front₁, back₁, replaced₁, hframes₁, hf₁, he₁, hclose⟩ :=
      close_plug hc hplug hframes hf he back f
    obtain ⟨front', back', replaced, hu, hend, hlast⟩ := ih hframes₁ hf₁ he₁ back₁
    refine ⟨front', back', replaced₁ || replaced, hu, hend, fun t ht q r => ?_⟩
    obtain ⟨htext, hreplaced⟩ := hlast t ht q (r || replaced₁)
    rw [Reading.tokens_stray, List.foldl_append, foldl_tokens_forest, List.foldl_cons, readToken,
      hclose t ht]
    exact ⟨htext, hreplaced.trans (Bool.or_assoc ..)⟩

end CallRule

end ReportMigration.Sql
