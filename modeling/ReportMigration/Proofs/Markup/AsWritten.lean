import Mathlib
import ReportMigration.Proofs.Markup.Rereading

/-!
# What stays of a document

A document without changes comes back as it is. In a changed one every event is written again, so
what stands outside of the changed parts stays exactly if each tag and each document type was written
there the way it is written back, and no second byte order mark was dropped.
-/

namespace ReportMigration.Markup

open Text Report

namespace Stretch

/-- The text of the document with only the parts of a changed field replaced. -/
def replaced : Stretch → List Char
  | kept piece => piece.raw
  | field start _ written stop _ => start.raw ++ (Event.sourceAll written ++ stop.raw)

def outside : Stretch → List Piece
  | kept piece => [piece]
  | field start _ _ stop _ => [start, stop]

theorem mem_pieces_of_outside {stretch : Stretch} {piece : Piece} (h : piece ∈ stretch.outside) :
    piece ∈ stretch.pieces := by
  cases stretch with
  | kept other => exact h
  | field start body written stop change =>
    simp only [outside, pieces, List.mem_cons, List.mem_append, List.not_mem_nil, or_false] at h ⊢
    exact h.imp_right .inr

/-- The texts that follow each other, as they should be kept and as they are written. -/
def runs : Stretch → List (List Char × List Char)
  | kept piece => [(piece.raw, piece.event.source)]
  | field start _ written stop _ =>
    [(start.raw, start.event.source), (Event.sourceAll written, Event.sourceAll written),
      (stop.raw, stop.event.source)]

end Stretch

/-- Two texts are the same, or there is no way to go on after them that makes them the same. -/
def Apart (run : List Char × List Char) : Prop :=
  run.1 = run.2 ∨ ∀ x y, run.1 ++ x ≠ run.2 ++ y

/-- Texts that are the same or apart, one after another, are the same only if each of them is. -/
theorem flatMap_eq_iff {runs : List (List Char × List Char)} (h : ∀ run ∈ runs, Apart run) :
    runs.flatMap Prod.fst = runs.flatMap Prod.snd ↔ ∀ run ∈ runs, run.1 = run.2 := by
  induction runs with
  | nil => simp
  | cons run runs ih =>
    have hrest := ih fun r hr => h r (List.mem_cons_of_mem _ hr)
    rw [List.flatMap_cons, List.flatMap_cons, List.forall_mem_cons]
    rcases h run List.mem_cons_self with he | hne
    · rw [he, List.append_cancel_left_eq, hrest]
      exact (and_iff_right rfl).symm
    · exact ⟨fun heq => absurd heq (hne _ _), fun heq => absurd (heq.1 ▸ rfl) (hne [] [])⟩

variable {stretches : List Stretch}

theorem replaced_eq (stretches : List Stretch) :
    stretches.flatMap Stretch.replaced = (stretches.flatMap Stretch.runs).flatMap Prod.fst := by
  induction stretches with
  | nil => rfl
  | cons stretch stretches ih =>
    rw [List.flatMap_cons, List.flatMap_cons, List.flatMap_append, ih]
    cases stretch <;> simp [Stretch.replaced, Stretch.runs]

theorem written_eq (stretches : List Stretch) :
    Event.sourceAll (stretches.flatMap Stretch.written) =
      (stretches.flatMap Stretch.runs).flatMap Prod.snd := by
  induction stretches with
  | nil => rfl
  | cons stretch stretches ih =>
    rw [List.flatMap_cons, List.flatMap_cons, List.flatMap_append, sourceAll_append, ih]
    cases stretch <;> simp [Stretch.written, Stretch.runs, Event.sourceAll]

theorem mem_runs {run : List Char × List Char} (h : run ∈ stretches.flatMap Stretch.runs) :
    (∃ piece ∈ stretches.flatMap Stretch.outside, run = (piece.raw, piece.event.source)) ∨
      run.1 = run.2 := by
  obtain ⟨stretch, hs, hr⟩ := List.mem_flatMap.1 h
  cases stretch with
  | kept piece =>
    obtain rfl := List.mem_singleton.1 hr
    exact .inl ⟨piece, List.mem_flatMap.2 ⟨_, hs, List.mem_cons_self⟩, rfl⟩
  | field start body written stop change =>
    rcases List.mem_cons.1 hr with rfl | hr
    · exact .inl ⟨start, List.mem_flatMap.2 ⟨_, hs, List.mem_cons_self⟩, rfl⟩
    · rcases List.mem_cons.1 hr with rfl | hr
      · exact .inr rfl
      · obtain rfl := List.mem_singleton.1 hr
        exact .inl ⟨stop, List.mem_flatMap.2 ⟨_, hs, by simp [Stretch.outside]⟩, rfl⟩

theorem run_mem_of_outside {piece : Piece} (h : piece ∈ stretches.flatMap Stretch.outside) :
    (piece.raw, piece.event.source) ∈ stretches.flatMap Stretch.runs := by
  obtain ⟨stretch, hs, hp⟩ := List.mem_flatMap.1 h
  refine List.mem_flatMap.2 ⟨stretch, hs, ?_⟩
  cases stretch with
  | kept other =>
    obtain rfl := List.mem_singleton.1 hp
    exact List.mem_cons_self
  | field start body written stop change =>
    rcases List.mem_cons.1 hp with rfl | hp
    · exact List.mem_cons_self
    · obtain rfl := List.mem_singleton.1 hp
      simp [Stretch.runs]

theorem runs_exact_iff (stretches : List Stretch) :
    (∀ run ∈ stretches.flatMap Stretch.runs, run.1 = run.2) ↔
      ∀ piece ∈ stretches.flatMap Stretch.outside, piece.Exact := by
  constructor
  · exact fun h piece hp => h _ (run_mem_of_outside hp)
  · intro h run hr
    rcases mem_runs hr with ⟨piece, hp, rfl⟩ | he
    · exact h piece hp
    · exact he

variable (h : ∀ piece ∈ stretches.flatMap Stretch.outside, Spelling piece.raw piece.event)
include h

theorem apart_runs : ∀ run ∈ stretches.flatMap Stretch.runs, Apart run := by
  intro run hr
  rcases mem_runs hr with ⟨piece, hp, rfl⟩ | he
  · exact (h piece hp).apart
  · exact .inl he

theorem count_runs :
    ((stretches.flatMap Stretch.runs).flatMap Prod.fst).count byteOrderMark =
      ((stretches.flatMap Stretch.runs).flatMap Prod.snd).count byteOrderMark := by
  rw [List.count_flatMap, List.count_flatMap]
  refine congrArg List.sum (List.map_congr_left fun run hr => ?_)
  rcases mem_runs hr with ⟨piece, hp, rfl⟩ | he
  · exact (h piece hp).count_eq (by decide)
  · exact congrArg (List.count byteOrderMark) he

/-- The document is written back with nothing else replaced, behind the same marks, exactly if every
piece outside is written back as it was read. -/
theorem written_eq_replaced_iff {mark second : List Char}
    (hsecond : second = [] ∨ second = [byteOrderMark]) :
    mark ++ Event.sourceAll (stretches.flatMap Stretch.written) =
        mark ++ (second ++ stretches.flatMap Stretch.replaced) ↔
      second = [] ∧ ∀ piece ∈ stretches.flatMap Stretch.outside, piece.Exact := by
  rw [List.append_cancel_left_eq, written_eq, replaced_eq, ← runs_exact_iff,
    ← flatMap_eq_iff (apart_runs h)]
  rcases hsecond with rfl | rfl
  · rw [List.nil_append]
    exact ⟨fun he => ⟨rfl, he.symm⟩, fun he => he.2.symm⟩
  · refine ⟨fun he => ?_, fun he => absurd he.1 (by decide)⟩
    have hcount := congrArg (List.count byteOrderMark) he
    rw [List.count_append, count_runs h] at hcount
    have hone : [byteOrderMark].count byteOrderMark = 1 := by decide
    omega

omit h

variable {selectors : List Selector} {σ : Type} {preferCdata : Bool} {transform : Transform σ}
  {document : List Char} {memory : σ} {d : ConvertedDocument}

/-- Stretches of what was read, behind the byte order marks, with what a conversion wrote. -/
structure CutAs (selectors : List Selector) (document : List Char) (d : ConvertedDocument)
    (stretches : List Stretch) : Prop where
  valid : ∀ stretch ∈ stretches, stretch.Valid selectors
  spelt : Spelt (stretches.flatMap Stretch.pieces)
  events : (stretches.flatMap Stretch.pieces).map Piece.event = (readDocument document).events
  raw : document = (cutByteOrderMark document).1 ++
    ((cutByteOrderMark (cutByteOrderMark document).2).1 ++
      (stretches.flatMap Stretch.pieces).flatMap Piece.raw)
  changes : stretches.flatMap Stretch.changes = d.changes
  content : d.content = if d.changes = [] then document
    else (cutByteOrderMark document).1 ++ Event.sourceAll (stretches.flatMap Stretch.written)

theorem exists_cutAs
    (hd : (convertFields selectors preferCdata transform document memory).result = .ok d) :
    ∃ stretches, CutAs selectors document d stretches := by
  obtain ⟨pieces, written, hspelt, hraw, hevents, -, ⟨stretches, hv, rfl, rfl, hchanges⟩, hcontent⟩ :=
    convertFields_passed hd
  refine ⟨stretches, hv, hspelt, hevents, ?_, hchanges, hcontent⟩
  rw [hraw, (cutByteOrderMark_eq _).1, (cutByteOrderMark_eq document).1]

theorem CutAs.content_iff {stretches : List Stretch} (h : CutAs selectors document d stretches)
    (hc : d.changes ≠ []) :
    d.content = (cutByteOrderMark document).1 ++
        ((cutByteOrderMark (cutByteOrderMark document).2).1 ++
          stretches.flatMap Stretch.replaced) ↔
      (cutByteOrderMark (cutByteOrderMark document).2).1 = [] ∧
        ∀ piece ∈ stretches.flatMap Stretch.outside, piece.Exact := by
  have hspelling : ∀ piece ∈ stretches.flatMap Stretch.outside, Spelling piece.raw piece.event := by
    intro piece hp
    obtain ⟨stretch, hs, hp⟩ := List.mem_flatMap.1 hp
    exact h.spelt.spelling piece (List.mem_flatMap.2 ⟨stretch, hs, Stretch.mem_pieces_of_outside hp⟩)
  rw [h.content, if_neg hc]
  exact written_eq_replaced_iff hspelling (cutByteOrderMark_eq _).2

/-- A document without changes comes back as it is. One with changes comes back with nothing but the
parts of the changed fields replaced exactly if it has no second byte order mark and each of its
other pieces is written back as it was read. -/
theorem content_eq_replaced_iff
    (hd : (convertFields selectors preferCdata transform document memory).result = .ok d) :
    (d.changes = [] → d.content = document) ∧
      (∃ stretches, CutAs selectors document d stretches) ∧
      ∀ stretches, CutAs selectors document d stretches → d.changes ≠ [] →
        (d.content = (cutByteOrderMark document).1 ++
            ((cutByteOrderMark (cutByteOrderMark document).2).1 ++
              stretches.flatMap Stretch.replaced) ↔
          (cutByteOrderMark (cutByteOrderMark document).2).1 = [] ∧
            ∀ piece ∈ stretches.flatMap Stretch.outside, piece.Exact) := by
  refine ⟨fun hc => ?_, exists_cutAs hd, fun stretches h hc => h.content_iff hc⟩
  obtain ⟨stretches, h⟩ := exists_cutAs hd
  rw [h.content, if_pos hc]

theorem content_eq_replaced_iff_field :
    let selectors : List Selector := [⟨"q".toList, none⟩]
    let document := "<r><q>a</q></r >".toList
    let d : ConvertedDocument := ⟨"<r><q>c</q></r>".toList,
      [⟨"q".toList, 0, "a".toList, "c".toList, false⟩]⟩
    (convertFields selectors false (Transform.ofPure fun _ => "c".toList) document ()).result =
        .ok d ∧
      (d.changes = [] → d.content = document) ∧
      (∃ stretches, CutAs selectors document d stretches) ∧
      ∀ stretches, CutAs selectors document d stretches → d.changes ≠ [] →
        (d.content = (cutByteOrderMark document).1 ++
            ((cutByteOrderMark (cutByteOrderMark document).2).1 ++
              stretches.flatMap Stretch.replaced) ↔
          (cutByteOrderMark (cutByteOrderMark document).2).1 = [] ∧
            ∀ piece ∈ stretches.flatMap Stretch.outside, piece.Exact) := by
  have h : (convertFields [⟨"q".toList, none⟩] false (Transform.ofPure fun _ => "c".toList)
      "<r><q>a</q></r >".toList ()).result = .ok ⟨"<r><q>c</q></r>".toList,
        [⟨"q".toList, 0, "a".toList, "c".toList, false⟩]⟩ := by
    decide +kernel
  exact ⟨h, content_eq_replaced_iff h⟩

/-- White space after the name of an end tag is lost, so the document does not stay as it is around
the changed field, whatever was put into the field. -/
theorem content_ne_around_field :
    ∃ d, (convertFields [⟨"q".toList, none⟩] false (Transform.ofPure fun _ => "c".toList)
        "<r><q>a</q></r >".toList ()).result = .ok d ∧
      d.changes.map Change.field = ["q".toList] ∧
      ∀ inside, d.content ≠ "<r><q>".toList ++ (inside ++ "</q></r >".toList) := by
  refine ⟨⟨"<r><q>c</q></r>".toList, [⟨"q".toList, 0, "a".toList, "c".toList, false⟩]⟩,
    by decide +kernel, by decide, fun inside he => ?_⟩
  -- The two end differently.
  have hlast := congrArg (fun text => text.reverse.take 2) he
  rw [List.reverse_append, List.reverse_append, List.append_assoc,
    List.take_append_of_le_length (by decide)] at hlast
  exact absurd hlast (by decide)

end ReportMigration.Markup
