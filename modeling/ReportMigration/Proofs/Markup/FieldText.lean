import Mathlib
import ReportMigration.Markup.Fields
import ReportMigration.Proofs.Markup.RoundTrip
import ReportMigration.Proofs.Text.Trim

/-!
# The text of a field

Escaped text means the text that was escaped. The parts of a changed field mean what they meant
before, with the text inside the white space replaced, both as they are written and as they are read
again.
-/

namespace ReportMigration.Markup

open Text Report

theorem escapeChar_eq {c : Char} (hl : c ≠ '<') (hg : c ≠ '>') (ha : c ≠ '&') :
    escapeChar c = [c] := by
  unfold escapeChar
  split <;> first | contradiction | rfl

theorem decodeFrom_escapeChar (length position : Nat) (c : Char) (text : List Char) :
    ∃ next, decodeFrom length position none (escapeChar c ++ text) =
      (c :: ·) <$> decodeFrom length next none text := by
  by_cases hl : c = '<'
  · exact ⟨position + 4, hl ▸ rfl⟩
  by_cases hg : c = '>'
  · exact ⟨position + 4, hg ▸ rfl⟩
  by_cases ha : c = '&'
  · exact ⟨position + 5, ha ▸ rfl⟩
  refine ⟨position + c.utf8Size, ?_⟩
  rw [escapeChar_eq hl hg ha, List.singleton_append, decodeFrom, if_neg ha]

theorem decodeFrom_escape (length position : Nat) (text : List Char) :
    decodeFrom length position none (escape text) = .ok text := by
  induction text generalizing position with
  | nil => rfl
  | cons c text ih =>
    have hstep : escape (c :: text) = escapeChar c ++ escape text := List.flatMap_cons
    obtain ⟨next, hc⟩ := decodeFrom_escapeChar length position c (escape text)
    rw [hstep, hc, ih]
    rfl

theorem decode_escape (text : List Char) : decode (escape text) = .ok text :=
  decodeFrom_escape _ 0 text

theorem escape_append (s t : List Char) : escape (s ++ t) = escape s ++ escape t :=
  List.flatMap_append

theorem notMem_escape (text : List Char) : '<' ∉ escape text := by
  intro hm
  obtain ⟨c, -, hc⟩ := List.mem_flatMap.1 hm
  unfold escapeChar at hc
  split at hc
  · exact absurd hc (by decide)
  · exact absurd hc (by decide)
  · exact absurd hc (by decide)
  · next hl _ _ => exact hl (List.mem_singleton.1 hc).symm

theorem escape_eq_nil {text : List Char} : escape text = [] ↔ text = [] := by
  constructor
  · intro h
    have hd := decode_escape text
    rw [h] at hd
    exact (Except.ok.inj hd).symm
  · rintro rfl
    rfl

theorem escape_blank {blanks : List Char} (h : blanks.all isAsciiBlank = true) :
    escape blanks = blanks := by
  induction blanks with
  | nil => rfl
  | cons c blanks ih =>
    obtain ⟨hc, hb⟩ : isAsciiBlank c = true ∧ blanks.all isAsciiBlank = true := by simpa using h
    have hne : c ≠ '<' ∧ c ≠ '>' ∧ c ≠ '&' := by
      refine ⟨?_, ?_, ?_⟩ <;> rintro rfl <;> exact absurd hc (by decide)
    have hstep : escape (c :: blanks) = escapeChar c ++ escape blanks := List.flatMap_cons
    rw [hstep, escapeChar_eq hne.1 hne.2.1 hne.2.2, ih hb, List.singleton_append]

theorem isBlank_of_isAsciiBlank {c : Char} (h : isAsciiBlank c = true) : isBlank c = true := by
  simp only [isAsciiBlank, Bool.or_eq_true, beq_iff_eq] at h
  rcases h with (((rfl | rfl) | rfl) | rfl) | rfl <;> decide

/-- Text and CDATA: what a field may hold. -/
def isContent : Event → Bool
  | .text _ => true
  | .cdata _ => true
  | _ => false

theorem isContent_of_isBlankText {event : Event} (h : isBlankText event = true) :
    isContent event = true := by
  cases event <;> first | rfl | cases h

def decodePart : Event → Except DecodeFault (List Char)
  | .text raw => decode raw
  | .cdata raw => .ok raw
  | _ => .ok []

theorem decodeParts_cons (part : Event) (parts : List Event) :
    decodeParts (part :: parts) =
      decodePart part >>= fun meant => (meant ++ ·) <$> decodeParts parts := by
  cases part with
  | text raw => rfl
  | cdata raw => rfl
  | _ =>
    show decodeParts parts = ([] ++ ·) <$> decodeParts parts
    simp

theorem decodeParts_append (parts others : List Event) :
    decodeParts (parts ++ others) =
      decodeParts parts >>= fun meant => (meant ++ ·) <$> decodeParts others := by
  induction parts with
  | nil =>
    show decodeParts others = ([] ++ ·) <$> decodeParts others
    simp
  | cons part parts ih =>
    rw [List.cons_append, decodeParts_cons, decodeParts_cons, ih]
    cases decodePart part with
    | error fault => rfl
    | ok first =>
      cases decodeParts parts with
      | error fault => rfl
      | ok second =>
        cases decodeParts others with
        | error fault => rfl
        | ok third => exact congrArg Except.ok (List.append_assoc first second third).symm

theorem blankTexts {blanks : List Event} (h : blanks.all isBlankText = true) :
    (Event.sourceAll blanks).all isAsciiBlank = true ∧
      decodeParts blanks = .ok (Event.sourceAll blanks) := by
  induction blanks with
  | nil => exact ⟨rfl, rfl⟩
  | cons event blanks ih =>
    obtain ⟨he, hb⟩ : isBlankText event = true ∧ blanks.all isBlankText = true := by simpa using h
    obtain ⟨hall, hdecode⟩ := ih hb
    cases event with
    | text raw =>
      have hraw : raw.all isAsciiBlank = true := he
      have hmeant : decode raw = .ok raw := by
        have hd := decode_escape raw
        rwa [escape_blank hraw] at hd
      have hsource : Event.sourceAll (.text raw :: blanks) = raw ++ Event.sourceAll blanks := rfl
      rw [hsource, decodeParts, hmeant, hdecode]
      refine ⟨?_, rfl⟩
      rw [List.all_append, hraw, hall]
      rfl
    | _ => cases he

theorem Body.ofParts_eq (parts : List Event) :
    parts = (ofParts parts).lead ++ ((ofParts parts).core ++ (ofParts parts).trail) := by
  have hrest : (parts.dropWhile isBlankText).reverse.takeWhile isBlankText ++
      (parts.dropWhile isBlankText).reverse.dropWhile isBlankText =
        (parts.dropWhile isBlankText).reverse := List.takeWhile_append_dropWhile
  have hcore : (ofParts parts).core ++ (ofParts parts).trail = parts.dropWhile isBlankText := by
    show (_ : List Event).reverse ++ (_ : List Event).reverse = _
    rw [← List.reverse_append, hrest, List.reverse_reverse]
  rw [hcore]
  exact List.takeWhile_append_dropWhile.symm

theorem Body.all_lead (parts : List Event) : (ofParts parts).lead.all isBlankText = true :=
  List.all_takeWhile

theorem Body.all_trail (parts : List Event) : (ofParts parts).trail.all isBlankText = true := by
  show (_ : List Event).reverse.all isBlankText = true
  rw [List.all_reverse]
  exact List.all_takeWhile

/-- The white space around a text is kept around the text that is put in its place. -/
theorem within_eq {lead text trail : List Char} (hl : lead.all isBlank = true)
    (ht : trail.all isBlank = true) (h : Tight text) (after : List Char) :
    within (lead ++ (text ++ trail)) after = lead ++ (after ++ trail) := by
  have hstart : ∀ {blanks s rest : List Char}, blanks.all isBlank = true →
      s.head?.any (fun c => !isBlank c) = true →
        (blanks ++ (s ++ rest)).takeWhile isBlank = blanks := by
    intro blanks s rest hb hs
    rw [List.takeWhile_append_of_pos (List.all_eq_true.1 hb)]
    cases s with
    | nil => exact absurd hs (by decide)
    | cons c s =>
      have hc : isBlank c = false := by simpa using hs
      rw [List.cons_append, List.takeWhile_cons_of_neg (by simp [hc]), List.append_nil]
  have hreverse : (lead ++ (text ++ trail)).reverse =
      trail.reverse ++ (text.reverse ++ lead.reverse) := by simp
  have htrail : trail.reverse.all isBlank = true := by rwa [List.all_reverse]
  have hlast : text.reverse.head?.any (fun c => !isBlank c) = true := by
    rw [List.head?_reverse]
    exact h.2
  rw [within, hstart hl h.1, hreverse, hstart htrail hlast, List.reverse_reverse, List.append_assoc]

/-- The parts of a changed field and what is written in their place. -/
def Settled (change : Change) (parts written : List Event) : Prop :=
  ∃ raw, decodeParts (Body.ofParts parts).core = .ok raw ∧ trim raw = change.before ∧
    change.before ≠ [] ∧ change.after ≠ change.before ∧
    (change.cdata = true → ¬ "]]>".toList <:+: within raw change.after) ∧
    written = (Body.ofParts parts).lead ++
      (writeText change.cdata (within raw change.after) :: (Body.ofParts parts).trail)

/-- The text of a field cannot be decoded, is all white space or stays the same. -/
def Steady (t : List Char → List Char) (parts : List Event) : Prop :=
  ∀ raw, decodeParts (Body.ofParts parts).core = .ok raw → trim raw ≠ [] → t (trim raw) = trim raw

theorem Progress.settle_spec {σ : Type} (preferCdata : Bool) (transform : Transform σ)
    (p : Progress σ) (f : OpenField) :
    (Steady (fun text => (transform text p.memory).1) f.parts ∧
      (p.settle preferCdata transform f).changes.toList = p.changes.toList ∧
      (p.settle preferCdata transform f).written.toList = p.written.toList ++ f.parts) ∨
    ∃ change written, change.field = f.field ∧ Settled change f.parts written ∧
      change.after = (transform change.before p.memory).1 ∧
      (p.settle preferCdata transform f).changes.toList = p.changes.toList ++ [change] ∧
      (p.settle preferCdata transform f).written.toList = p.written.toList ++ written := by
  have hkept : (p.emitAll f.parts).changes.toList = p.changes.toList ∧
      (p.emitAll f.parts).written.toList = p.written.toList ++ f.parts :=
    ⟨rfl, Array.toList_appendList⟩
  unfold Progress.settle Steady
  dsimp only
  split
  · next hreason => exact .inl ⟨fun raw hraw => absurd (hreason.symm.trans hraw) nofun, hkept⟩
  · next raw hraw =>
    have hsame : ∀ other, decodeParts (Body.ofParts f.parts).core = .ok other → other = raw :=
      fun other hother => Except.ok.inj (hother.symm.trans hraw)
    split
    · next hnil =>
      refine .inl ⟨fun other hother hne => ?_, hkept⟩
      rw [hsame other hother] at hne
      exact absurd (List.isEmpty_iff.1 hnil) hne
    · next hne =>
      split
      · next hafter => exact .inl ⟨fun other hother _ => by rwa [hsame other hother], hkept⟩
      · next hafter =>
        refine .inr ⟨_, _, rfl, ?_, rfl, Array.toList_push, Array.toList_appendList⟩
        · refine ⟨raw, hraw, rfl, ?_, hafter, ?_, ?_⟩
          · simpa using hne
          · intro hc
            rw [← occursIn_iff]
            simpa using (Bool.and_eq_true_iff.1 hc).2
          · simp

theorem Progress.settle_depth {σ : Type} (preferCdata : Bool) (transform : Transform σ)
    (p : Progress σ) (f : OpenField) : (p.settle preferCdata transform f).depth = p.depth := by
  unfold Progress.settle
  dsimp only
  split
  · rfl
  · split
    · rfl
    · split <;> rfl

/-- The new parts of a field mean what the old ones mean, with the text between the white space
replaced. They are one CDATA section between blank texts, or escaped text. -/
structure Replaced (change : Change) (old new : List Event) : Prop where
  before_ne_nil : change.before ≠ []
  after_ne : change.after ≠ change.before
  meaning : ∃ lead trail, lead.all isBlank = true ∧ trail.all isBlank = true ∧
    trim (lead ++ (change.before ++ trail)) = change.before ∧
    decodeParts old = .ok (lead ++ (change.before ++ trail)) ∧
    decodeParts new = .ok (lead ++ (change.after ++ trail))
  section_of_cdata : change.cdata = true → ∃ lead text trail, new = lead ++ (.cdata text :: trail) ∧
    lead.all isBlankText = true ∧ trail.all isBlankText = true
  escaped_of_not_cdata : change.cdata = false → ∀ part ∈ new, ∃ text, part = .text (escape text)

/-- What is written in the place of a field, as it is read again: texts next to each other are one
text, and no text is left of an empty one. -/
def reread (change : Change) (written : List Event) : List Event :=
  if change.cdata then written
  else if Event.sourceAll written = [] then []
  else [.text (Event.sourceAll written)]

theorem sourceAll_append (s t : List Event) :
    Event.sourceAll (s ++ t) = Event.sourceAll s ++ Event.sourceAll t :=
  List.flatMap_append

theorem sourceAll_cons (event : Event) (events : List Event) :
    Event.sourceAll (event :: events) = event.source ++ Event.sourceAll events :=
  List.flatMap_cons

theorem sourceAll_reread (change : Change) (written : List Event) :
    Event.sourceAll (reread change written) = Event.sourceAll written := by
  unfold reread
  split
  · rfl
  · split
    · next h => exact h.symm
    · exact List.append_nil _

theorem reread_text {change : Change} (hc : change.cdata = false) {lead trail : List Event}
    (hl : lead.all isBlankText = true) (ht : trail.all isBlankText = true) (text : List Char) :
    let joined := Event.sourceAll lead ++ (text ++ Event.sourceAll trail)
    reread change (lead ++ (writeText change.cdata text :: trail)) =
      if joined = [] then [] else [.text (escape joined)] := by
  have hsource : Event.sourceAll (lead ++ (writeText change.cdata text :: trail)) =
      escape (Event.sourceAll lead ++ (text ++ Event.sourceAll trail)) := by
    have hwritten : (writeText change.cdata text).source = escape text := by
      rw [hc]
      rfl
    rw [sourceAll_append, sourceAll_cons, hwritten, escape_append, escape_append,
      escape_blank (blankTexts hl).1, escape_blank (blankTexts ht).1]
  rw [reread, hsource, if_neg (by simp [hc])]
  simp only [escape_eq_nil]

theorem reread_cdata {change : Change} (hc : change.cdata = true) (lead trail : List Event)
    (text : List Char) : reread change (lead ++ (writeText change.cdata text :: trail)) =
      lead ++ (.cdata text :: trail) := by
  rw [reread, if_pos hc, hc]
  rfl

/-- Between blank texts the parts mean what they mean alone, with the white space around it. -/
theorem decodeParts_between {lead core trail : List Event} (hl : lead.all isBlankText = true)
    (ht : trail.all isBlankText = true) {raw : List Char} (hraw : decodeParts core = .ok raw) :
    decodeParts (lead ++ (core ++ trail)) =
      .ok (Event.sourceAll lead ++ (raw ++ Event.sourceAll trail)) := by
  rw [decodeParts_append, decodeParts_append, (blankTexts hl).2, hraw, (blankTexts ht).2]
  rfl

/-- What is written between blank texts means the same when it is read again. -/
theorem decodeParts_reread (change : Change) {lead trail : List Event}
    (hl : lead.all isBlankText = true) (ht : trail.all isBlankText = true) (text : List Char) :
    decodeParts (reread change (lead ++ (writeText change.cdata text :: trail))) =
      .ok (Event.sourceAll lead ++ (text ++ Event.sourceAll trail)) := by
  cases hc : change.cdata with
  | true =>
    rw [← hc, reread_cdata hc, ← List.singleton_append]
    refine decodeParts_between hl ht ?_
    rw [decodeParts_cons]
    exact congrArg Except.ok (List.append_nil _)
  | false =>
    rw [← hc, reread_text hc hl ht]
    split
    · next hnil => rw [hnil]; rfl
    · rw [decodeParts_cons, decodePart, decode_escape]
      exact congrArg Except.ok (List.append_nil _)

theorem all_isBlank {blanks : List Char} (h : blanks.all isAsciiBlank = true) :
    blanks.all isBlank = true := by
  rw [List.all_eq_true] at h ⊢
  exact fun c hc => isBlank_of_isAsciiBlank (h c hc)

theorem Settled.replaced {change : Change} {parts written : List Event}
    (h : Settled change parts written) : Replaced change parts (reread change written) := by
  obtain ⟨raw, hraw, hbefore, hne, hafter, -, rfl⟩ := h
  have hl := Body.all_lead parts
  have ht := Body.all_trail parts
  have hparts := Body.ofParts_eq parts
  generalize Body.ofParts parts = body at *
  have htight : Tight change.before := by
    rw [← hbefore]
    exact (trim_eq_nil_or_tight raw).resolve_left (hbefore ▸ hne)
  obtain ⟨left, right, hleft, hright, he⟩ := exists_trim raw
  rw [hbefore] at he
  subst he
  rw [within_eq hleft hright htight]
  have hlead : (Event.sourceAll body.lead ++ left).all isBlank = true := by
    rw [List.all_append, all_isBlank (blankTexts hl).1, hleft]
    rfl
  have htrail : (right ++ Event.sourceAll body.trail).all isBlank = true := by
    rw [List.all_append, all_isBlank (blankTexts ht).1, hright]
    rfl
  refine ⟨hne, hafter, ?_, ?_, ?_⟩
  · refine ⟨_, _, hlead, htrail, ?_, ?_, ?_⟩
    · rw [trim_append _ _ htight, trimStart_eq_nil hlead, trimEnd_eq_nil htrail, List.nil_append,
        List.append_nil]
    · rw [hparts, decodeParts_between hl ht hraw]
      simp only [List.append_assoc]
    · rw [decodeParts_reread change hl ht]
      simp only [List.append_assoc]
  · intro hc
    exact ⟨body.lead, _, body.trail, reread_cdata hc _ _ _, hl, ht⟩
  · intro hc part hmem
    rw [reread_text hc hl ht] at hmem
    split at hmem
    · cases hmem
    · exact ⟨_, List.mem_singleton.1 hmem⟩

theorem isContent_of_mem_reread {change : Change} {parts written : List Event}
    (h : Settled change parts written) {part : Event} (hp : part ∈ reread change written) :
    isContent part = true := by
  have hr := h.replaced
  cases hc : change.cdata with
  | true =>
    obtain ⟨lead, text, trail, he, hl, ht⟩ := hr.section_of_cdata hc
    rw [he] at hp
    rcases List.mem_append.1 hp with hp | hp
    · exact isContent_of_isBlankText (List.all_eq_true.1 hl part hp)
    · rcases List.mem_cons.1 hp with rfl | hp
      · rfl
      · exact isContent_of_isBlankText (List.all_eq_true.1 ht part hp)
  | false =>
    obtain ⟨text, rfl⟩ := hr.escaped_of_not_cdata hc part hp
    rfl

theorem Settled.readsBack {change : Change} {parts written : List Event}
    (h : Settled change parts written) (hp : ReadsBack parts) :
    ReadsBack (reread change written) := by
  obtain ⟨raw, -, -, -, -, hend, rfl⟩ := h
  have hl := Body.all_lead parts
  have ht := Body.all_trail parts
  have hparts := Body.ofParts_eq parts
  generalize Body.ofParts parts = body at *
  cases hc : change.cdata with
  | true =>
    rw [← hc, reread_cdata hc]
    obtain ⟨hlead, hrest, -⟩ := separate_append.1 (hparts ▸ hp.separate)
    refine ⟨fun event he => ?_, separate_append.2 ⟨hlead, separate_cons.2 ⟨?_, ?_⟩, ?_⟩⟩
    · rcases List.mem_append.1 he with he | he
      · exact hp.spelling event (by rw [hparts]; simp [he])
      · rcases List.mem_cons.1 he with rfl | he
        · exact spelling_cdata (hend hc)
        · exact hp.spelling event (by rw [hparts]; simp [he])
    · rintro next - ⟨hk, -⟩
      cases hk
    · exact (separate_append.1 hrest).2.1
    · rintro last - next hnext ⟨-, hk⟩
      cases hnext
      cases hk
  | false =>
    rw [← hc, reread_text hc hl ht]
    split
    · exact ⟨by simp, List.isChain_nil⟩
    · next hne =>
      refine ⟨fun event he => ?_, List.isChain_singleton _⟩
      obtain rfl := List.mem_singleton.1 he
      exact spelling_text (fun hnil => hne (escape_eq_nil.1 hnil)) (notMem_escape _)

end ReportMigration.Markup
