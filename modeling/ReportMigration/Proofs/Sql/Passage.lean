import ReportMigration.Proofs.Sql.Carry

/-!
# Calls in a text

What a call rule makes of a text around a call: a call of the rule's function is settled, a call of
another function stays, with its argument as the rule leaves it alone, and neither has a part in
what stands in front of it and behind it.
-/

namespace ReportMigration.Sql

open Text Token

namespace CallRule

variable {rule : CallRule} {before : Option Char}

/-- A rule leaves a text alone if no call is replaced when its tokens are read. -/
theorem apply_eq_none_iff (hf : Named rule.function) (text : List Char) : rule.apply text = none ↔
    ((ofText rule.function text).foldl rule.readToken ⟨[], [], false, false⟩).replaced = false := by
  have hr := (foldl_tokens_reading rule (Reading.ofText rule.function text)).2
  rw [Reading.tokens_ofText] at hr
  rw [apply_eq_ite hf.isWord, hr]
  simp

theorem exists_forest_output (hf : Named rule.function) {text : List Char} (h : Closed text) :
    ∃ f : Forest, cut rule.function none text = f.tokens ∧
      RegularFrom rule.function none f.tokens ∧ f.source = text ∧
      rule.output text = f.evaluate rule := by
  obtain ⟨f, hr, ht, hregular, hs⟩ := exists_forest hf h none
  refine ⟨f, ht, hregular, hs, ?_⟩
  rw [output, Reading.ofText, ofText, hr]
  simp [Reading.evaluate]

theorem closed_output (ht : Tidy rule.transform) (hf : Named rule.function) {text : List Char}
    (h : Closed text) : Closed (rule.output text) := by
  obtain ⟨f, -, hregular, -, ho⟩ := exists_forest_output hf h
  rw [ho]
  exact f.closed_evaluate ht hf hregular

theorem item_output (ht : Tidy rule.transform) (hf : Named rule.function) {text : List Char}
    (h : Item text) : Item (rule.output text) := by
  obtain ⟨f, -, hregular, hs, ho⟩ := exists_forest_output hf h.closed
  rw [ho, Item, f.walk_evaluate ht hf hregular true 0, hs]
  exact h

theorem solid_output (ht : Tidy rule.transform) (hf : Named rule.function) {text : List Char}
    (h : Closed text) : Solid (rule.output text) ↔ Solid text := by
  obtain ⟨f, -, hregular, hs, ho⟩ := exists_forest_output hf h
  rw [ho, f.solid_evaluate ht hf hregular, hs]

/-- Reading the tokens writes the text and leaves the open parentheses as they are. -/
def Writes (rule : CallRule) (ts : List Token) (text : List Char) : Prop :=
  ∀ s : State, ∃ r, ts.foldl rule.readToken s = { s.write text with replaced := r }

theorem Writes.append {ts us : List Token} {t u : List Char} (ht : Writes rule ts t)
    (hu : Writes rule us u) : Writes rule (ts ++ us) (t ++ u) := by
  intro s
  obtain ⟨r, hr⟩ := ht s
  obtain ⟨r', hr'⟩ := hu { s.write t with replaced := r }
  exact ⟨r', by rw [List.foldl_append, hr, hr', State.write_append]; rfl⟩

theorem writes_others (rule : CallRule) (text : List Char) : Writes rule (text.map Token.other) text := by
  intro s
  refine ⟨s.replaced, ?_⟩
  induction text generalizing s with
  | nil => rfl
  | cons c text ih =>
    rw [List.map_cons, List.foldl_cons, readToken, ih, State.write_cons]
    rfl

theorem writes_literal (rule : CallRule) (text : List Char) :
    Writes rule [Token.literal text] text :=
  fun s => ⟨s.replaced, rfl⟩

theorem writes_forest (rule : CallRule) (f : Forest) : Writes rule f.tokens (f.evaluate rule) :=
  fun s => ⟨_, foldl_tokens_forest f s⟩

theorem Writes.group {ts : List Token} {inside : List Char} (h : Writes rule ts inside)
    (opener : Option (List Char)) :
    Writes rule (opening opener :: (ts ++ [Token.closing])) (rule.settled opener inside) := by
  intro s
  obtain ⟨r, hr⟩ := h (s.push opener)
  refine ⟨r || (rule.replacement opener inside).isSome, ?_⟩
  rw [List.foldl_cons, List.foldl_append, readToken, hr, List.foldl_cons, List.foldl_nil, readToken,
    close_cons (f := ⟨s.written, opener⟩) rfl]
  simp [State.write, State.push]

theorem Writes.output {ts : List Token} {text written : List Char}
    (hcut : cut rule.function none text = ts) (h : Writes rule ts written) :
    rule.output text = written := by
  obtain ⟨r, hr⟩ := h ⟨[], [], false, false⟩
  rw [← text_foldl_tokens, ofText, hcut, hr]
  simp [State.text, State.write]

/-- A closed text in front of a comma is settled apart from what is behind the comma. -/
theorem output_append (hf : Named rule.function) {text : List Char} (h : Closed text)
    {rest written : List Char} (hw : Writes rule (cut rule.function none (',' :: rest)) written) :
    rule.output (text ++ ',' :: rest) = rule.output text ++ written := by
  obtain ⟨f, htokens, -, -, hout⟩ := exists_forest_output hf h
  have hc := confined_opener hf (d := ',') (by decide) (by decide) (by decide)
  refine Writes.output ?_ (hout ▸ (writes_forest rule f).append hw)
  rw [cut_append_cons hf h.unquoted (by decide) (by decide) (fun b x _ => hc.stops b x rest), htokens]

theorem ends_output (hf : Named rule.function) {kind : Char → Bool}
    (hkind : ∀ c, isWord c = true ∨ c = '(' ∨ c = ')' → kind c = false)
    (ht : ∀ {args text}, rule.transform args = some text →
      text.head?.map kind = some false ∧ text.getLast?.map kind = some false)
    {text : List Char} (h : Closed text) :
    (rule.output text).head?.map kind = text.head?.map kind ∧
      (rule.output text).getLast?.map kind = text.getLast?.map kind := by
  obtain ⟨f, -, hregular, hs, hout⟩ := exists_forest_output hf h
  rw [hout, ← hs]
  exact f.ends_evaluate hf hkind ht hregular

theorem ends_output_blank (ht : Tidy rule.transform) (hf : Named rule.function) {text : List Char}
    (h : Closed text) : (rule.output text).head?.map isBlank = text.head?.map isBlank ∧
      (rule.output text).getLast?.map isBlank = text.getLast?.map isBlank := by
  refine ends_output hf (fun c hc => ?_) (fun he => tight_iff.1 (ht.tight he)) h
  rcases hc with hword | rfl | rfl
  · exact isBlank_of_isWord hword
  · decide
  · decide

/-- A rule settles what is left of a text without the white space around it. -/
theorem output_trim (ht : Tidy rule.transform) (hf : Named rule.function) {text : List Char}
    (h : Closed text) : rule.output (trim text) = trim (rule.output text) := by
  have hclosed : Closed (trim text) := (Place.walk_trim false _ text).trans h
  obtain ⟨f, htokens, -, -, hout⟩ := exists_forest_output hf hclosed
  obtain ⟨lead, trail, hl, htrail, -, hcut⟩ := cut_trim hf hclosed.unquoted
  rw [htokens] at hcut
  have hwhole : rule.output text = lead ++ (rule.output (trim text) ++ trail) :=
    Writes.output hcut ((writes_others rule lead).append
      (hout ▸ (writes_forest rule f).append (writes_others rule trail)))
  have hends := ends_output_blank ht hf hclosed
  rcases trim_eq_nil_or_tight text with hn | htight
  · have hnil : rule.output (trim text) = [] := by
      rw [hn] at hends ⊢
      simpa using hends.1
    have hblank : (lead ++ ([] ++ trail)).all isBlank = true := by simp [hl, htrail]
    rw [hwhole, hnil, trim, trimStart_eq_nil hblank]
    rfl
  · have htight' : Tight (rule.output (trim text)) :=
      tight_iff.2 ⟨hends.1.trans (tight_iff.1 htight).1, hends.2.trans (tight_iff.1 htight).2⟩
    rw [hwhole, trim_append lead trail htight', trimStart_eq_nil hl, trimEnd_eq_nil htrail]
    simp

/-- A rule reads a plug, and puts it into a text that depends on nothing but what stands in front of
it and behind it. Whether it replaces a call, if it replaces none in the plug, depends on no more. -/
theorem output_plug (ht : Tidy rule.transform) (hf : Named rule.function)
    (plug : List Char → Prop) (hplug : ∀ t, plug t → Item t)
    (hc : ∀ e, Carries e plug rule.transform) {front : List Char} (hfront : Unquoted front)
    (back : List Char) :
    ∃ front' back' calm, Unquoted front' ∧ Turns rule (ending front) (ending front') ∧
      ∀ t z ts, plug t → z.head? ≠ some '\'' →
        (∀ b x, x ≠ [] → opener rule.function ⟨b, x ++ z⟩ = opener rule.function ⟨b, x⟩) →
        cut rule.function front.getLast? z = ts ++ cut rule.function none back →
        Writes rule ts t → rule.output (front ++ z) = front' ++ (t ++ back') ∧
          ((∀ s, ts.foldl rule.readToken s = s.write t) →
            (rule.apply (front ++ z) = none ↔ calm)) := by
  have hregular := regularFrom_cut hf hfront none
  have hsound := State.Sound.foldl ht hf hregular (s := ⟨[], [], false, false⟩)
    ⟨fun f hm => absurd hm (by simp), unquoted_nil⟩
  have hturns := turns_foldl ht hregular
  rw [source_cut] at hturns
  generalize hs : (cut rule.function none front).foldl rule.readToken ⟨[], [], false, false⟩ = s
    at hsound hturns
  obtain ⟨front', back', replaced, hu, he, hlast⟩ := foldl_plug (hc _) hplug
    (cut rule.function none back) hsound.frames (unquoted_reverse.2 hsound.written) rfl []
  refine ⟨front', back', (s.replaced || replaced) = false, hu, he ▸ hturns,
    fun t z ts hp hz hseam hcut hw => ?_⟩
  have hcut' := cut_append hf hfront (fun hq => absurd hq hz) hseam none
  rw [Option.or_none, hcut] at hcut'
  constructor
  · obtain ⟨r, hr⟩ := hw s
    rw [← text_foldl_tokens, ofText, hcut', List.foldl_append, List.foldl_append, hs, hr]
    simpa [State.write] using (hlast t hp s.quoted r).1
  · intro hkeep
    have hreplaced := (hlast t hp s.quoted s.replaced).2
    rw [apply_eq_none_iff hf, ofText, hcut', List.foldl_append, List.foldl_append, hs, hkeep,
      ← hreplaced]
    simp [State.write]

theorem plug_call {other : List Char} (hg : Named other) {o : List Char} (ho : Opens other o)
    {arg : List Char} (h : Closed arg) : Plug (o ++ (arg ++ [')'])) := by
  obtain ⟨c, rest, he, hc⟩ := ho.exists_head hg
  have hlast : (arg ++ [')']).getLast?.any (fun c => !isBlank c) = true := by
    rw [List.getLast?_concat]
    decide
  refine ⟨?_, tight_append (by simp [he, isBlank_of_isWord hc]) hlast, ho.head_append hg _, by
    simp [← List.append_assoc]⟩
  rw [Item, Place.walk_append, walk_opens hg ho, Option.bind_some, Place.walk_append, h.walk]
  rfl

/-- Between the same texts a rule puts what becomes of a call of its function and what becomes of a call
of another function, if these are plugs. -/
theorem output_calls (ht : Tidy rule.transform) (hf : Named rule.function)
    {plug : List Char → Prop} (hplug : ∀ t, plug t → Item t) (hc : ∀ e, Carries e plug rule.transform)
    {front : List Char} (hfront : Unquoted front) (back : List Char) :
    ∃ front' back', Unquoted front' ∧ Turns rule (ending front) (ending front') ∧
      (∀ {o arg : List Char}, ending front ≠ .word → Opens rule.function o → Closed arg →
        plug (rule.settled (some o) (rule.output arg)) →
          rule.output (front ++ (o ++ (arg ++ ')' :: back))) =
            front' ++ (rule.settled (some o) (rule.output arg) ++ back')) ∧
      ∀ {other o arg : List Char}, Named other → rule.function.map foldCase ≠ other.map foldCase →
        (∀ a, a ≠ [] → rule.function.map foldCase ≠ a ++ other.map foldCase) → Opens other o →
          Closed arg → plug (o ++ (rule.output arg ++ [')'])) →
            rule.output (front ++ (o ++ (arg ++ ')' :: back))) =
              front' ++ (o ++ (rule.output arg ++ [')']) ++ back') := by
  obtain ⟨front', back', _, hu, hturns, houtput⟩ := output_plug ht hf plug hplug hc hfront back
  refine ⟨front', back', hu, hturns, fun {o arg} hword ho harg hp => ?_,
    fun {other o arg} hg hne hsuffix ho harg hp => ?_⟩
  · obtain ⟨f, htokens, -, -, hout⟩ := exists_forest_output hf harg
    have hw := (writes_forest rule f).group (some o)
    rw [← hout] at hw
    refine (houtput _ _ _ hp (ho.head_append hf _) (fun b x hx => ?_) ?_ hw).1
    · refine opener_eq_of_opens hf hf ho (fun a ha he => ha ?_) hx _
      exact List.append_left_eq_self.1 he.symm
    · rw [cut_opens hf ho (ending_ne_word_iff.1 hword), cut_argument hf harg.unquoted, htokens]
      simp
  · obtain ⟨f, htokens, -, -, hout⟩ := exists_forest_output hf harg
    have hlast : o = o.dropLast ++ ['('] := by
      obtain ⟨name, blanks, rfl, -, -⟩ := ho
      rw [← List.append_assoc, List.dropLast_concat]
    have hw := (writes_others rule o.dropLast).append ((writes_forest rule f).group none)
    rw [← hout] at hw
    have hsettled : o.dropLast ++ rule.settled none (rule.output arg) =
        o ++ (rule.output arg ++ [')']) := by
      conv => rhs; rw [hlast]
      simp [settled, replacement]
    rw [hsettled] at hw
    refine (houtput _ _ _ hp (ho.head_append hg _)
      (fun b x hx => opener_eq_of_opens hf hg ho hsuffix hx _) ?_ hw).1
    rw [cut_opens_other hf hg hne ho, cut_argument hf harg.unquoted, htokens]
    simp

theorem output_other_call (ht : Tidy rule.transform) (hf : Named rule.function)
    (hc : ∀ e, Carries e Plug rule.transform) {other : List Char} (hg : Named other)
    (hne : rule.function.map foldCase ≠ other.map foldCase)
    (hsuffix : ∀ a, a ≠ [] → rule.function.map foldCase ≠ a ++ other.map foldCase)
    {o : List Char} (ho : Opens other o) {front : List Char} (hfront : Unquoted front)
    (back : List Char) :
    ∃ front' back', Unquoted front' ∧ Turns rule (ending front) (ending front') ∧
      ∀ arg, Closed arg → rule.output (front ++ (o ++ (arg ++ ')' :: back))) =
        front' ++ (o ++ (rule.output arg ++ ')' :: back')) := by
  obtain ⟨front', back', hu, hturns, -, hother⟩ :=
    output_calls ht hf (fun _ hp => Plug.item hp) hc hfront back
  refine ⟨front', back', hu, hturns, fun arg harg => ?_⟩
  simpa using hother hg hne hsuffix ho harg (plug_call hg ho (closed_output ht hf harg))

theorem output_own_call (ht : Tidy rule.transform) (hf : Named rule.function)
    (plug : List Char → Prop) (hplug : ∀ t, plug t → Item t)
    (hc : ∀ e, Carries e plug rule.transform) {o : List Char} (ho : Opens rule.function o)
    {front : List Char} (hfront : Unquoted front) (hword : ending front ≠ .word) (back : List Char) :
    ∃ front' back', Unquoted front' ∧ Turns rule (ending front) (ending front') ∧
      ∀ arg, Closed arg → plug (rule.settled (some o) (rule.output arg)) →
        rule.output (front ++ (o ++ (arg ++ ')' :: back))) =
          front' ++ (rule.settled (some o) (rule.output arg) ++ back') := by
  obtain ⟨front', back', hu, hturns, hown, -⟩ := output_calls ht hf hplug hc hfront back
  exact ⟨front', back', hu, hturns, fun _ harg hp => hown hword ho harg hp⟩

end CallRule

end ReportMigration.Sql
