import Mathlib
import ReportMigration.Proofs.Markup.Rereading
import ReportMigration.Proofs.Markup.SideBySide

/-!
# Converting a document twice

A transform that gives trimmed texts and leaves alone what it gave changes nothing in a document that
it has converted: the run over the document writes stretches, and the run over what is read again of
them stays beside it.
-/

namespace ReportMigration.Markup

open Text Report

variable {selectors : List Selector} {preferCdata : Bool} {t : List Char → List Char}
  {p q : Progress Unit}

/-- A run over events with a transform without a memory. -/
def Progress.run (selectors : List Selector) (preferCdata : Bool) (t : List Char → List Char)
    (p : Progress Unit) (events : List Event) : Progress Unit :=
  events.foldl (Progress.step selectors preferCdata (Transform.ofPure t)) p

theorem Progress.run_append (events others : List Event) :
    p.run selectors preferCdata t (events ++ others) =
      (p.run selectors preferCdata t events).run selectors preferCdata t others :=
  List.foldl_append

/-- A run over a selected element as long as there is nothing but text and CDATA in it. -/
theorem Progress.run_opened (hc : p.current = none) {s : Selector} {tag : List Char}
    (hs : selectors.find? (·.selects tag) = some s) {parts : List Event}
    (hparts : ∀ part ∈ parts, isContent part = true) :
    p.run selectors preferCdata t (.opening tag :: parts) = p.opened s tag parts := by
  rw [run, List.foldl_cons, step_opening hc hs, opened_run hparts, List.nil_append]

/-- The run over some pieces writes stretches, and a second run over what is read again of them stays
beside it. -/
def Repeats (selectors : List Selector) (preferCdata : Bool) (t : List Char → List Char)
    (p : Progress Unit) (pieces : List Piece) : Prop :=
  ∃ stretches : List Stretch, (∀ stretch ∈ stretches, stretch.Valid selectors) ∧
    stretches.flatMap Stretch.pieces = pieces ∧
    (p.run selectors preferCdata t (pieces.map Piece.event)).written.toList =
      p.written.toList ++ stretches.flatMap Stretch.written ∧
    ∀ q, Twin p q → Twin (p.run selectors preferCdata t (pieces.map Piece.event))
      (q.run selectors preferCdata t (stretches.flatMap Stretch.reread))

theorem Repeats.nil : Repeats selectors preferCdata t p [] :=
  ⟨[], by simp, rfl, (List.append_nil _).symm, fun _ h => h⟩

theorem Repeats.append {pieces others : List Piece} (h : Repeats selectors preferCdata t p pieces)
    (h' : Repeats selectors preferCdata t
      (p.run selectors preferCdata t (pieces.map Piece.event)) others) :
    Repeats selectors preferCdata t p (pieces ++ others) := by
  obtain ⟨front, hv, rfl, hw, htwin⟩ := h
  obtain ⟨back, hv', rfl, hw', htwin'⟩ := h'
  refine ⟨front ++ back, fun stretch hs => ?_, List.flatMap_append, ?_, fun q hq => ?_⟩
  · exact (List.mem_append.1 hs).elim (hv stretch) (hv' stretch)
  · rw [List.map_append, Progress.run_append, hw', hw, List.flatMap_append, List.append_assoc]
  · rw [List.map_append, Progress.run_append, List.flatMap_append, Progress.run_append]
    exact htwin' _ (htwin q hq)

theorem repeats_kept {pieces : List Piece}
    (hw : (p.run selectors preferCdata t (pieces.map Piece.event)).written.toList =
      p.written.toList ++ pieces.map Piece.event)
    (htwin : ∀ q, Twin p q → Twin (p.run selectors preferCdata t (pieces.map Piece.event))
      (q.run selectors preferCdata t (pieces.map Piece.event))) :
    Repeats selectors preferCdata t p pieces := by
  have hmap : ∀ pieces : List Piece, (pieces.map Stretch.kept).flatMap Stretch.pieces = pieces ∧
      (pieces.map Stretch.kept).flatMap Stretch.written = pieces.map Piece.event ∧
      (pieces.map Stretch.kept).flatMap Stretch.reread = pieces.map Piece.event := by
    intro pieces
    induction pieces with
    | nil => exact ⟨rfl, rfl, rfl⟩
    | cons piece pieces ih => simp [ih, Stretch.pieces, Stretch.written, Stretch.reread]
  obtain ⟨hpieces, hwritten, hreread⟩ := hmap pieces
  refine ⟨pieces.map Stretch.kept, ?_, hpieces, hwritten.symm ▸ hw, fun q hq => ?_⟩
  · simpa using fun piece _ => Stretch.Valid.kept piece
  · rw [hreread]
    exact htwin q hq

theorem repeats_one (h : p.Calm) {piece : Piece}
    (hs : ∀ tag, piece.event = .opening tag → p.current = none →
      selectors.find? (·.selects tag) = none) :
    Repeats selectors preferCdata t p [piece] := by
  refine repeats_kept ?_ fun q hq => (hq.step hs).2
  exact (congrArg Array.toList ((Twin.refl h).step hs).1).trans Array.toList_push

section

variable {start stop : Piece} {body : List Piece} {s : Selector} {tag : List Char}
  (hc : p.current = none) (hstart : start.event = .opening tag)
  (hs : selectors.find? (·.selects tag) = some s)
  (hbody : ∀ piece ∈ body, isContent piece.event = true)
include hc hstart hs hbody

theorem Progress.run_field :
    p.run selectors preferCdata t ((start :: body).map Piece.event) =
      p.opened s tag (body.map Piece.event) := by
  rw [List.map_cons, hstart]
  exact run_opened hc hs (by simpa using hbody)

theorem Progress.run_stop (stop : Piece) :
    p.run selectors preferCdata t ((start :: (body ++ [stop])).map Piece.event) =
      (p.opened s tag (body.map Piece.event)).step selectors preferCdata (Transform.ofPure t)
        stop.event := by
  rw [← run_field hc hstart hs hbody, ← List.cons_append, List.map_append, run_append]
  rfl

theorem repeats_mixed (hcontent : isContent stop.event = false)
    (hstop : ∀ name, stop.event ≠ .closing name) :
    Repeats selectors preferCdata t p (start :: (body ++ [stop])) := by
  have hopen : ∀ q : Progress Unit, ∀ tag', stop.event = .opening tag' →
      (q.opened s tag (body.map Piece.event)).release.current = none →
        selectors.find? (·.selects tag') = none := nofun
  refine repeats_kept ?_ fun q hq => ?_
  · rw [Progress.run_stop hc hstart hs hbody, Progress.step_release hcontent hstop rfl,
      ((Twin.refl (Progress.calm_release _)).step (hopen p)).1]
    simp [Progress.release, Progress.opened, Progress.emit, Progress.emitAll, hstart]
  · rw [Progress.run_stop hc hstart hs hbody,
      Progress.run_stop (hq.current_eq_none.2 hc) hstart hs hbody,
      Progress.step_release (p := p.opened s tag _) hcontent hstop rfl,
      Progress.step_release (p := q.opened s tag _) hcontent hstop rfl]
    exact ((hq.release s tag _).step (hopen p)).2

theorem repeats_field (trimmed : ∀ text, trim (t text) = t text)
    (idempotent : ∀ text, t (t text) = t text) {name : List Char}
    (hstop : stop.event = .closing name) :
    Repeats selectors preferCdata t p (start :: (body ++ [stop])) := by
  let f : OpenField := ⟨s.display, p.seen, p.depth + 1, body.map Piece.event, false⟩
  have hwritten : ∀ q : Progress Unit,
      ((q.opened s tag f.parts).step selectors preferCdata (Transform.ofPure t)
        (.closing name)).written = ((q.opened s tag f.parts).settle preferCdata (Transform.ofPure t)
          ⟨s.display, q.seen, q.depth + 1, f.parts, false⟩).written.push (.closing name) :=
    fun q => by rw [Progress.step_closing rfl rfl]; rfl
  rcases (p.opened s tag f.parts).settle_spec preferCdata (Transform.ofPure t) f with
    ⟨hsteady, -, hw⟩ | ⟨change, written, hfield, hsettled, hafter, -, hw⟩
  · refine repeats_kept ?_ fun q hq => ?_
    · rw [Progress.run_stop hc hstart hs hbody, hstop, hwritten, Array.toList_push, hw]
      simp [Progress.opened, Progress.emit, f, hstart, hstop]
    · rw [Progress.run_stop hc hstart hs hbody,
        Progress.run_stop (hq.current_eq_none.2 hc) hstart hs hbody, hstop]
      exact hq.closing _ hsteady name
  · have hvalid : (Stretch.field start body written stop change).Valid selectors :=
      .field hstart hs hfield hbody hstop hsettled
    have hsteady : Steady t (reread change written) := by
      refine hsettled.steady ?_ ?_
      · rw [hafter]; exact trimmed _
      · rw [hafter]; exact idempotent _
    refine ⟨[.field start body written stop change], by simpa using hvalid, by simp [Stretch.pieces],
      ?_, fun q hq => ?_⟩
    · rw [Progress.run_stop hc hstart hs hbody, hstop, hwritten, Array.toList_push, hw]
      simp [Progress.opened, Progress.emit, Stretch.written, hstart, hstop]
    · have hreread : [Stretch.field start body written stop change].flatMap Stretch.reread =
          .opening tag :: (reread change written ++ [.closing name]) := by
        simp [Stretch.reread, hstart, hstop]
      rw [Progress.run_stop hc hstart hs hbody, hreread, hstop, ← List.cons_append,
        Progress.run_append,
        Progress.run_opened (hq.current_eq_none.2 hc) hs fun _ => isContent_of_mem_reread hsettled]
      exact hq.closing _ hsteady name

end

section

variable (trimmed : ∀ text, trim (t text) = t text) (idempotent : ∀ text, t (t text) = t text)
include trimmed idempotent

theorem exists_repeats {pieces : List Piece} (hne : pieces ≠ []) (h : p.Calm)
    (hd : (p.run selectors preferCdata t (pieces.map Piece.event)).depth = 0) :
    ∃ front rest, pieces = front ++ rest ∧ front ≠ [] ∧ Repeats selectors preferCdata t p front := by
  cases pieces with
  | nil => exact absurd rfl hne
  | cons start pieces =>
    by_cases hopens : ∃ tag s, start.event = .opening tag ∧ p.current = none ∧
        selectors.find? (·.selects tag) = some s
    · obtain ⟨tag, s, hstart, hc, hs⟩ := hopens
      have hsplit : pieces.takeWhile (isContent ·.event) ++ pieces.dropWhile (isContent ·.event) =
          pieces := List.takeWhile_append_dropWhile
      have hbody : ∀ piece ∈ pieces.takeWhile (isContent ·.event), isContent piece.event = true :=
        List.all_eq_true.1 List.all_takeWhile
      generalize pieces.takeWhile (isContent ·.event) = body at hsplit hbody
      cases hrest : pieces.dropWhile (isContent ·.event) with
      | nil =>
        -- The field is never closed.
        rw [hrest, List.append_nil] at hsplit
        rw [← hsplit, Progress.run_field hc hstart hs hbody] at hd
        exact absurd hd (Nat.succ_ne_zero _)
      | cons stop rest =>
        have hcontent := List.head?_dropWhile_not (isContent ·.event) pieces
        rw [hrest] at hcontent hsplit
        refine ⟨start :: (body ++ [stop]), rest, by simp [← hsplit], by simp, ?_⟩
        by_cases hstop : ∃ name, stop.event = .closing name
        · obtain ⟨name, hstop⟩ := hstop
          exact repeats_field hc hstart hs hbody trimmed idempotent hstop
        · exact repeats_mixed hc hstart hs hbody (by simpa using hcontent)
            fun name hn => hstop ⟨name, hn⟩
    · refine ⟨[start], pieces, rfl, by simp, repeats_one h fun tag he hc => ?_⟩
      rw [Option.eq_none_iff_forall_ne_some]
      exact fun s hs => hopens ⟨tag, s, he, hc, hs⟩

theorem repeats_run {pieces : List Piece} (h : p.Calm)
    (hd : (p.run selectors preferCdata t (pieces.map Piece.event)).depth = 0) :
    Repeats selectors preferCdata t p pieces := by
  induction hn : pieces.length using Nat.strong_induction_on generalizing pieces p with
  | _ n ih =>
    by_cases hne : pieces = []
    · exact hne ▸ Repeats.nil
    · obtain ⟨front, rest, rfl, hfront, hrepeats⟩ := exists_repeats trimmed idempotent hne h hd
      have hlt : rest.length < n := by
        have := List.length_pos_iff.2 hfront
        rw [List.length_append] at hn
        omega
      have hcalm : (p.run selectors preferCdata t (front.map Piece.event)).Calm := by
        obtain ⟨_, -, -, -, htwin⟩ := hrepeats
        exact (htwin _ (Twin.refl h)).calm
      rw [List.map_append, Progress.run_append] at hd
      exact hrepeats.append (ih _ hlt hcalm hd rfl)

end

theorem convertFields_eq_unchanged {σ : Type} {transform : Transform σ} {document : List Char}
    {memory : σ} (hf : (readDocument document).fault = none)
    (hd : (lastProgress selectors preferCdata transform document memory).depth = 0)
    (hc : (lastProgress selectors preferCdata transform document memory).changes = #[]) :
    (convertFields selectors preferCdata transform document memory).result = .ok ⟨document, []⟩ := by
  rw [convertFields]
  dsimp only
  split
  · next hfault =>
    have hnone := hf.symm.trans hfault
    cases hnone
  · exact (if_neg (not_not.2 hd)).trans (if_pos (Array.isEmpty_iff.2 hc))

theorem calm_initial {σ : Type} (memory : σ) : (Progress.initial memory).Calm :=
  nofun

theorem readsBack_append_stretches {front : List Event} {stretches : List Stretch}
    (hv : ∀ stretch ∈ stretches, stretch.Valid selectors)
    (h : ReadsBack (front ++ (stretches.flatMap Stretch.pieces).map Piece.event)) :
    ReadsBack (front ++ stretches.flatMap Stretch.reread) := by
  obtain ⟨hfront, hrest, hbetween⟩ := separate_append.1 h.separate
  have hback := readsBack_stretches hv
    ⟨fun event he => h.spelling event (List.mem_append_right _ he), hrest⟩
  refine ⟨fun event he => ?_, separate_append.2 ⟨hfront, hback.separate, ?_⟩⟩
  · exact (List.mem_append.1 he).elim (fun he => h.spelling event (List.mem_append_left _ he))
      (hback.spelling event)
  · rwa [head_rereads]

/-- A second run from behind the given events changes nothing, if the first one was beside it. -/
theorem convertFields_behind {content : List Char} {front : List Event} {rest : List Piece}
    (hfront : ∀ event ∈ front, isContent event = true)
    (hback : ReadsBack (front ++ rest.map Piece.event))
    (hnest : (rest.map Piece.event).foldlM nest [] = .ok [])
    (htwin : Twin p ((Progress.initial ()).run selectors preferCdata t front))
    (hd : (p.run selectors preferCdata t (rest.map Piece.event)).depth = 0)
    (hr : Repeats selectors preferCdata t p rest)
    (hread : ∀ stretches : List Stretch, stretches.flatMap Stretch.pieces = rest →
      (p.run selectors preferCdata t (rest.map Piece.event)).written.toList =
        p.written.toList ++ stretches.flatMap Stretch.written →
      readDocument content = read (Event.sourceAll front ++
        Event.sourceAll (stretches.flatMap Stretch.reread))) :
    (convertFields selectors preferCdata (Transform.ofPure t) content ()).result =
      .ok ⟨content, []⟩ := by
  obtain ⟨stretches, hv, rfl, hw, hbeside⟩ := hr
  have hopen : (front ++ stretches.flatMap Stretch.reread).foldlM nest [] = .ok [] :=
    (nest_content hfront _).trans ((edited_stretches hv).nest_eq.trans hnest)
  have hreading : readDocument content = ⟨front ++ stretches.flatMap Stretch.reread, none⟩ := by
    rw [hread stretches rfl hw, ← sourceAll_append]
    exact (readsBack_append_stretches hv hback).readFrom_eq hopen
  have hlast : lastProgress selectors preferCdata (Transform.ofPure t) content () =
      ((Progress.initial ()).run selectors preferCdata t front).run selectors preferCdata t
        (stretches.flatMap Stretch.reread) := by
    rw [lastProgress, hreading, ← Progress.run_append]
    rfl
  have hend := hbeside _ htwin
  refine convertFields_eq_unchanged (hreading ▸ rfl) ?_ ?_
  · rw [hlast, hend.depth, hd]
  · rw [hlast, hend.unchanged]

theorem notMem_of_spelling_text {raw : List Char} (h : Spelling raw (.text raw)) : '<' ∉ raw := by
  cases raw with
  | nil => exact List.not_mem_nil
  | cons c raw =>
    have hc : c ≠ '<' := by simpa [Event.isText] using h.head
    have hread := h.reads [] fun _ => rfl
    rw [List.append_nil, readEvent_eq_text hc] at hread
    have htext : (c :: raw).takeWhile (· != '<') = c :: raw :=
      Event.text.inj (Except.ok.inj (Prod.mk.inj hread).1)
    intro hm
    rw [← htext] at hm
    exact absurd (List.mem_takeWhile_imp hm) (by decide)

theorem exists_marked {pieces : List Piece} (h : Spelt pieces)
    (hm : (pieces.flatMap Piece.raw).head? = some byteOrderMark) :
    ∃ raw rest, pieces = ⟨byteOrderMark :: raw, .text (byteOrderMark :: raw)⟩ :: rest := by
  cases pieces with
  | nil => cases hm
  | cons piece rest =>
    obtain ⟨raw, event⟩ := piece
    have hs : Spelling raw event := h.spelling _ List.mem_cons_self
    rw [List.flatMap_cons, List.head?_append_of_ne_nil _ hs.ne_nil] at hm
    have htext : event.isText = true := by
      have hhead := hs.head
      rw [hm] at hhead
      simpa [byteOrderMark] using hhead
    cases event with
    | text text =>
      cases hs
      cases text with
      | nil => cases hm
      | cons c text =>
        obtain rfl : c = byteOrderMark := Option.some.inj hm
        exact ⟨text, rest, rfl⟩
    | _ => cases htext

/-- The text at the start of a document, when a byte order mark was cut from it. -/
def cutText (raw : List Char) : List Event :=
  if raw = [] then [] else [.text raw]

theorem sourceAll_cutText (raw : List Char) : Event.sourceAll (cutText raw) = raw := by
  unfold cutText
  split
  · next h => exact h.symm
  · exact List.append_nil _

theorem isContent_cutText {raw : List Char} : ∀ event ∈ cutText raw, isContent event = true := by
  unfold cutText
  split <;> simp [isContent]

/-- The text that is read again behind its byte order mark leaves the run as the marked text did. -/
theorem twin_cutText (raw : List Char) :
    Twin ((Progress.initial ()).emit (.text (byteOrderMark :: raw)))
      ((Progress.initial ()).run selectors preferCdata t (cutText raw)) := by
  unfold cutText
  split <;> exact ⟨nofun, nofun, rfl, rfl, rfl⟩

theorem readsBack_cutText {c : Char} {raw : List Char} {events : List Event}
    (h : ReadsBack (.text (c :: raw) :: events)) : ReadsBack (cutText raw ++ events) := by
  obtain ⟨hs, hhead, hevents⟩ := readsBack_cons.1 h
  unfold cutText
  split
  · exact hevents
  · next hne =>
    have hraw : '<' ∉ raw := fun hm => notMem_of_spelling_text hs (List.mem_cons_of_mem _ hm)
    exact readsBack_cons.2 ⟨spelling_text hne hraw, hhead, hevents⟩

theorem readDocument_marks (text : List Char) :
    readDocument (byteOrderMark :: byteOrderMark :: text) = read text := by
  rw [readDocument, cutByteOrderMark, if_pos rfl, cutByteOrderMark, if_pos rfl]

/-- A converted document comes back as it is from a second conversion, without a change. -/
theorem convertFields_again (trimmed : ∀ text, trim (t text) = t text)
    (idempotent : ∀ text, t (t text) = t text) {document : List Char} {d : ConvertedDocument}
    (h : (convertFields selectors preferCdata (Transform.ofPure t) document ()).result = .ok d) :
    (convertFields selectors preferCdata (Transform.ofPure t) d.content ()).result =
      .ok ⟨d.content, []⟩ := by
  obtain ⟨-, hdepth, hchanges, hcontent⟩ := convertFields_eq_ok h
  by_cases hc : d.changes = []
  · rw [if_pos hc] at hcontent
    obtain ⟨content, changes⟩ := d
    subst hc hcontent
    exact h
  rw [if_neg hc] at hcontent
  obtain ⟨pieces, -, hspelt, hraw, hevents, hnest, -⟩ := convertFields_passed h
  have hlast : lastProgress selectors preferCdata (Transform.ofPure t) document () =
      (Progress.initial ()).run selectors preferCdata t (pieces.map Piece.event) := by
    rw [lastProgress, ← hevents]
    rfl
  rw [hlast] at hdepth hcontent
  have hmark := (cutByteOrderMark_eq document).2
  by_cases hm : (pieces.flatMap Piece.raw).head? = some byteOrderMark
  · -- The mark that stays in front of the text is cut when the document is read again.
    obtain ⟨raw, rest, rfl⟩ := exists_marked hspelt hm
    have hfirst : (Progress.initial ()).run selectors preferCdata t
        (List.map Piece.event (⟨byteOrderMark :: raw, .text (byteOrderMark :: raw)⟩ :: rest)) =
        ((Progress.initial ()).emit (.text (byteOrderMark :: raw))).run selectors preferCdata t
          (rest.map Piece.event) := rfl
    rw [hfirst] at hdepth hcontent
    refine convertFields_behind isContent_cutText (readsBack_cutText hspelt.readsBack) hnest
      (twin_cutText raw) hdepth (repeats_run trimmed idempotent nofun hdepth) fun stretches _ hw => ?_
    have hone : (cutByteOrderMark document).1 = [byteOrderMark] :=
      cutByteOrderMark_of_marked (hraw ▸ hm)
    have hwritten : Event.sourceAll
        ((Progress.initial ()).emit (.text (byteOrderMark :: raw))).written.toList =
          byteOrderMark :: raw := List.append_nil _
    rw [hcontent, hone, hw, sourceAll_append, hwritten, sourceAll_cutText, sourceAll_rereads]
    exact readDocument_marks _
  · have htwin : Twin (Progress.initial ())
        ((Progress.initial ()).run selectors preferCdata t []) :=
      ⟨calm_initial (), calm_initial (), rfl, rfl, rfl⟩
    have hrepeats := repeats_run trimmed idempotent (calm_initial ()) hdepth
    refine convertFields_behind (List.forall_mem_nil _) hspelt.readsBack hnest htwin hdepth hrepeats
      fun stretches hpieces hw => ?_
    have hhead : (Event.sourceAll (stretches.flatMap Stretch.reread)).head? ≠ some byteOrderMark := by
      rwa [head_sourceAll hspelt (hpieces ▸ head_rereads stretches)]
    have hwritten : (Progress.initial ()).written.toList ++ stretches.flatMap Stretch.written =
        stretches.flatMap Stretch.written := List.nil_append _
    rw [hcontent, hw, hwritten, ← sourceAll_rereads]
    exact readDocument_append hmark hhead

theorem convertFields_again_fields :
    let selectors : List Selector := [⟨"q".toList, none⟩]
    let t : List Char → List Char := fun _ => "c>d".toList
    let document := "<r><q> a&lt;b </q><q>a<b/></q><q><![CDATA[a]]></q></r>".toList
    let d : ConvertedDocument := ⟨"<r><q> c&gt;d </q><q>a<b/></q><q><![CDATA[c>d]]></q></r>".toList,
      [⟨"q".toList, 0, "a<b".toList, "c>d".toList, false⟩,
        ⟨"q".toList, 2, "a".toList, "c>d".toList, true⟩]⟩
    (∀ text, trim (t text) = t text) ∧ (∀ text, t (t text) = t text) ∧
      (convertFields selectors false (Transform.ofPure t) document ()).result = .ok d ∧
      (convertFields selectors false (Transform.ofPure t) d.content ()).result =
        .ok ⟨d.content, []⟩ := by
  have trimmed : trim "c>d".toList = "c>d".toList := by decide
  have h : (convertFields [⟨"q".toList, none⟩] false (Transform.ofPure fun _ => "c>d".toList)
      "<r><q> a&lt;b </q><q>a<b/></q><q><![CDATA[a]]></q></r>".toList ()).result =
        .ok ⟨"<r><q> c&gt;d </q><q>a<b/></q><q><![CDATA[c>d]]></q></r>".toList,
          [⟨"q".toList, 0, "a<b".toList, "c>d".toList, false⟩,
            ⟨"q".toList, 2, "a".toList, "c>d".toList, true⟩]⟩ := by
    decide +kernel
  exact ⟨fun _ => trimmed, fun _ => rfl, h, convertFields_again (fun _ => trimmed) (fun _ => rfl) h⟩

end ReportMigration.Markup
