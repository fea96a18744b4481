import Mathlib
import ReportMigration.Proofs.Markup.Stretches

/-!
# Reading a converted document again

A document that was changed is read again without a fault, with every element closed. Its events are
those of the document it was made from, apart from the parts of the changed fields, which mean the
same text with the changed text in its place.
-/

namespace ReportMigration.Markup

open Text Report

/-- The same events in the same order, apart from the parts of the changed fields. -/
inductive Edited (selectors : List Selector) : List Event → List Event → List Change → Prop
  | nil : Edited selectors [] [] []
  | kept {old new : List Event} {changes : List Change} (event : Event)
    (h : Edited selectors old new changes) :
    Edited selectors (event :: old) (event :: new) changes
  | field {old new parts parts' : List Event} {changes : List Change} {tag name : List Char}
    {s : Selector} {change : Change} (hs : selectors.find? (·.selects tag) = some s)
    (hfield : change.field = s.display) (hparts : ∀ part ∈ parts, isContent part = true)
    (hparts' : ∀ part ∈ parts', isContent part = true) (hr : Replaced change parts parts')
    (h : Edited selectors old new changes) :
    Edited selectors (.opening tag :: (parts ++ .closing name :: old))
      (.opening tag :: (parts' ++ .closing name :: new)) (change :: changes)

variable {names : List (List Char)}

theorem nest_content {parts : List Event} (h : ∀ part ∈ parts, isContent part = true)
    (others : List Event) : (parts ++ others).foldlM nest names = others.foldlM nest names := by
  induction parts with
  | nil => rfl
  | cons part parts ih =>
    have hpart : nest names part = .ok names := by
      have hp := h part List.mem_cons_self
      cases part <;> first | rfl | cases hp
    rw [List.cons_append, List.foldlM_cons, hpart]
    exact ih fun p hp => h p (List.mem_cons_of_mem _ hp)

theorem Edited.nest_eq {selectors : List Selector} {old new : List Event} {changes : List Change}
    (h : Edited selectors old new changes) :
    new.foldlM nest names = old.foldlM nest names := by
  induction h generalizing names with
  | nil => rfl
  | kept event _ ih =>
    rw [List.foldlM_cons, List.foldlM_cons]
    simp only [ih]
  | field _ _ hparts hparts' _ _ ih =>
    simp only [List.foldlM_cons, nest_content hparts, nest_content hparts', ih]

theorem readsBack_cons {event : Event} {events : List Event} : ReadsBack (event :: events) ↔
    Spelling event.source event ∧
      (∀ next ∈ events.head?, ¬ (event.isText = true ∧ next.isText = true)) ∧ ReadsBack events := by
  constructor
  · intro h
    obtain ⟨hhead, htail⟩ := separate_cons.1 h.separate
    exact ⟨h.spelling event List.mem_cons_self, hhead,
      fun e he => h.spelling e (List.mem_cons_of_mem _ he), htail⟩
  · rintro ⟨hs, hhead, h⟩
    refine ⟨fun e he => ?_, separate_cons.2 ⟨hhead, h.separate⟩⟩
    rcases List.mem_cons.1 he with rfl | he
    · exact hs
    · exact h.spelling e he

theorem readsBack_field {start stop : Event} (hstart : start.isText = false)
    (hstop : stop.isText = false) {parts others : List Event} :
    ReadsBack (start :: (parts ++ stop :: others)) ↔
      Spelling start.source start ∧ Spelling stop.source stop ∧ ReadsBack parts ∧
        ReadsBack others := by
  constructor
  · intro h
    obtain ⟨hs, -, hrest⟩ := readsBack_cons.1 h
    obtain ⟨hparts, hothers, -⟩ := separate_append.1 hrest.separate
    refine ⟨hs, hrest.spelling stop (by simp), ⟨fun e he => hrest.spelling e (by simp [he]), hparts⟩,
      ⟨fun e he => hrest.spelling e (by simp [he]), (separate_cons.1 hothers).2⟩⟩
  · rintro ⟨hs, hs', hparts, hothers⟩
    refine readsBack_cons.2 ⟨hs, fun next _ hk => ?_, fun e he => ?_, ?_⟩
    · rw [hstart] at hk
      cases hk.1
    · rcases List.mem_append.1 he with he | he
      · exact hparts.spelling e he
      · rcases List.mem_cons.1 he with rfl | he
        · exact hs'
        · exact hothers.spelling e he
    · refine separate_append.2 ⟨hparts.separate, separate_cons.2 ⟨fun next _ hk => ?_,
        hothers.separate⟩, fun last _ next hn hk => ?_⟩
      · rw [hstop] at hk
        cases hk.1
      · cases hn
        rw [hstop] at hk
        cases hk.2

namespace Stretch

def reread : Stretch → List Event
  | kept piece => [piece.event]
  | field start _ written stop change =>
    start.event :: (Markup.reread change written ++ [stop.event])

end Stretch

variable {selectors : List Selector} {stretches : List Stretch}

theorem sourceAll_rereads (stretches : List Stretch) :
    Event.sourceAll (stretches.flatMap Stretch.reread) =
      Event.sourceAll (stretches.flatMap Stretch.written) := by
  induction stretches with
  | nil => rfl
  | cons stretch stretches ih =>
    rw [List.flatMap_cons, List.flatMap_cons, sourceAll_append, sourceAll_append, ih]
    cases stretch with
    | kept piece => rfl
    | field start body written stop change =>
      simp only [Stretch.reread, Stretch.written, sourceAll_cons, sourceAll_append, sourceAll_reread]

theorem edited_stretches (hv : ∀ stretch ∈ stretches, stretch.Valid selectors) :
    Edited selectors ((stretches.flatMap Stretch.pieces).map Piece.event)
      (stretches.flatMap Stretch.reread) (stretches.flatMap Stretch.changes) := by
  induction stretches with
  | nil => exact .nil
  | cons stretch stretches ih =>
    have hrest := ih fun s hs => hv s (List.mem_cons_of_mem _ hs)
    cases hv stretch List.mem_cons_self with
    | kept piece => exact .kept piece.event hrest
    | @field start stop body written change tag name s hstart hs hfield hbody hstop hsettled =>
      have hparts : ∀ part ∈ body.map Piece.event, isContent part = true := by
        simpa using hbody
      have hparts' : ∀ part ∈ reread change written, isContent part = true :=
        fun _ => isContent_of_mem_reread hsettled
      have hedited : Edited selectors _ (.opening tag :: (reread change written ++
          .closing name :: stretches.flatMap Stretch.reread)) _ :=
        .field hs hfield hparts hparts' hsettled.replaced hrest
      simpa [Stretch.pieces, Stretch.reread, Stretch.changes, hstart, hstop] using hedited

theorem head_rereads (stretches : List Stretch) :
    (stretches.flatMap Stretch.reread).head? =
      ((stretches.flatMap Stretch.pieces).map Piece.event).head? := by
  cases stretches with
  | nil => rfl
  | cons stretch stretches => cases stretch <;> rfl

theorem readsBack_stretches (hv : ∀ stretch ∈ stretches, stretch.Valid selectors)
    (h : ReadsBack ((stretches.flatMap Stretch.pieces).map Piece.event)) :
    ReadsBack (stretches.flatMap Stretch.reread) := by
  induction stretches with
  | nil => exact h
  | cons stretch stretches ih =>
    have hrest := ih fun s hs => hv s (List.mem_cons_of_mem _ hs)
    rw [List.flatMap_cons, List.map_append] at h
    rw [List.flatMap_cons]
    cases hv stretch List.mem_cons_self with
    | kept piece =>
      obtain ⟨hs, hhead, h⟩ := readsBack_cons.1 h
      refine readsBack_cons.2 ⟨hs, ?_, hrest h⟩
      rwa [List.append_eq, List.nil_append, head_rereads]
    | @field start stop body written change tag name s hstart hs hfield hbody hstop hsettled =>
      have hstart' : start.event.isText = false := hstart ▸ rfl
      have hstop' : stop.event.isText = false := hstop ▸ rfl
      have hold : ReadsBack (start.event :: (body.map Piece.event ++
          stop.event :: (stretches.flatMap Stretch.pieces).map Piece.event)) := by
        simpa [Stretch.pieces] using h
      obtain ⟨hs, hs', hparts, hothers⟩ := (readsBack_field hstart' hstop').1 hold
      have hnew : ReadsBack (start.event :: (reread change written ++
          stop.event :: stretches.flatMap Stretch.reread)) :=
        (readsBack_field hstart' hstop').2 ⟨hs, hs', hsettled.readsBack hparts, hrest hothers⟩
      simpa [Stretch.reread] using hnew

theorem cutByteOrderMark_eq (text : List Char) :
    (cutByteOrderMark text).1 ++ (cutByteOrderMark text).2 = text ∧
      ((cutByteOrderMark text).1 = [] ∨ (cutByteOrderMark text).1 = [byteOrderMark]) := by
  cases text with
  | nil => exact ⟨rfl, .inl rfl⟩
  | cons c text =>
    rw [cutByteOrderMark]
    split
    · next hc => exact ⟨rfl, .inr (by rw [hc])⟩
    · exact ⟨rfl, .inl rfl⟩

theorem cutByteOrderMark_of_head {text : List Char} (h : text.head? ≠ some byteOrderMark) :
    cutByteOrderMark text = ([], text) := by
  cases text with
  | nil => rfl
  | cons c text =>
    rw [cutByteOrderMark, if_neg]
    rintro rfl
    exact h rfl

theorem head_of_cutByteOrderMark {text : List Char} (h : (cutByteOrderMark text).1 = []) :
    text.head? ≠ some byteOrderMark := by
  cases text with
  | nil => exact nofun
  | cons c text =>
    rw [cutByteOrderMark] at h
    split at h
    · cases h
    · next hc => exact fun he => hc (Option.some.inj he)

theorem cutByteOrderMark_of_marked {text : List Char}
    (h : (cutByteOrderMark (cutByteOrderMark text).2).2.head? = some byteOrderMark) :
    (cutByteOrderMark text).1 = [byteOrderMark] := by
  refine (cutByteOrderMark_eq text).2.resolve_left fun hnone => ?_
  have hhead := head_of_cutByteOrderMark hnone
  rw [cutByteOrderMark_of_head hhead, cutByteOrderMark_of_head hhead] at h
  exact hhead h

theorem readDocument_append {mark text : List Char} (hm : mark = [] ∨ mark = [byteOrderMark])
    (h : text.head? ≠ some byteOrderMark) : readDocument (mark ++ text) = read text := by
  have hcut := cutByteOrderMark_of_head h
  rcases hm with rfl | rfl
  · rw [List.nil_append, readDocument, hcut, hcut]
  · have hmark : cutByteOrderMark ([byteOrderMark] ++ text) = ([byteOrderMark], text) := by
      rw [List.singleton_append, cutByteOrderMark, if_pos rfl]
    rw [readDocument, hmark, hcut]

theorem head_sourceAll {pieces : List Piece} {events : List Event} (h : Spelt pieces)
    (he : events.head? = (pieces.map Piece.event).head?) :
    (Event.sourceAll events).head? = (pieces.flatMap Piece.raw).head? := by
  cases pieces with
  | nil =>
    have hnil : events = [] := by simpa using he
    rw [hnil]
    rfl
  | cons piece pieces =>
    cases events with
    | nil => cases he
    | cons event events =>
      obtain rfl : event = piece.event := Option.some.inj he
      have hs := h.spelling piece List.mem_cons_self
      rw [sourceAll_cons, List.flatMap_cons, List.head?_append_of_ne_nil _ hs.ne_nil,
        List.head?_append_of_ne_nil _ hs.back.ne_nil, hs.head_eq]

variable {σ : Type} {preferCdata : Bool} {transform : Transform σ} {document : List Char}
  {memory : σ} {d : ConvertedDocument}

/-- A document that was changed is read again without a fault and with every element closed, as the
same events apart from the parts of the changed fields. -/
theorem readDocument_converted
    (h : (convertFields selectors preferCdata transform document memory).result = .ok d)
    (hc : d.changes ≠ []) (hm : (cutByteOrderMark (cutByteOrderMark document).2).1 = []) :
    ∃ events, readDocument d.content = ⟨events, none⟩ ∧ events.foldlM nest [] = .ok [] ∧
      Edited selectors (readDocument document).events events d.changes := by
  obtain ⟨pieces, written, hspelt, hraw, hevents, hnest, hpassed, hcontent⟩ :=
    convertFields_passed h
  obtain ⟨stretches, hv, hpieces, hwritten, hchanges⟩ := hpassed
  have hedited : Edited selectors (pieces.map Piece.event) (stretches.flatMap Stretch.reread)
      d.changes := by
    rw [← hpieces, ← hchanges]
    exact edited_stretches hv
  have hback : ReadsBack (stretches.flatMap Stretch.reread) :=
    readsBack_stretches hv (hpieces ▸ hspelt.readsBack)
  have hnew : (stretches.flatMap Stretch.reread).foldlM nest [] = .ok [] :=
    hedited.nest_eq.trans hnest
  have hbody : (cutByteOrderMark document).2 = pieces.flatMap Piece.raw := by
    have hsplit := (cutByteOrderMark_eq (cutByteOrderMark document).2).1
    rw [hm, List.nil_append] at hsplit
    rw [hraw, hsplit]
  have hfirst : (Event.sourceAll (stretches.flatMap Stretch.reread)).head? ≠ some byteOrderMark := by
    rw [head_sourceAll hspelt (hpieces ▸ head_rereads stretches), ← hbody]
    exact head_of_cutByteOrderMark hm
  refine ⟨_, ?_, hnew, hevents ▸ hedited⟩
  rw [hcontent, if_neg hc, ← hwritten, ← sourceAll_rereads,
    readDocument_append (cutByteOrderMark_eq document).2 hfirst]
  exact hback.readFrom_eq hnew

theorem readDocument_converted_field :
    let selectors : List Selector := [⟨"q".toList, none⟩]
    let document := "<r><q> a&lt;b </q></r>".toList
    let d : ConvertedDocument := ⟨"<r><q> c&gt;d </q></r>".toList,
      [⟨"q".toList, 0, "a<b".toList, "c>d".toList, false⟩]⟩
    (convertFields selectors false (Transform.ofPure fun _ => "c>d".toList) document ()).result =
        .ok d ∧
      ∃ events, readDocument d.content = ⟨events, none⟩ ∧ events.foldlM nest [] = .ok [] ∧
        Edited selectors (readDocument document).events events d.changes := by
  have h : (convertFields [⟨"q".toList, none⟩] false (Transform.ofPure fun _ => "c>d".toList)
      "<r><q> a&lt;b </q></r>".toList ()).result = .ok ⟨"<r><q> c&gt;d </q></r>".toList,
        [⟨"q".toList, 0, "a<b".toList, "c>d".toList, false⟩]⟩ := by
    decide +kernel
  exact ⟨h, readDocument_converted h (by decide) (by decide)⟩

end ReportMigration.Markup
