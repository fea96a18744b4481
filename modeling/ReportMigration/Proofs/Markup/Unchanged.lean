import Mathlib
import ReportMigration.Proofs.Markup.Rerunning

/-!
# Documents that come back as they are

What is written in the place of a changed field is read again as other parts than those of the field,
since it means another text. So a document with a change is never written as it was.
-/

namespace ReportMigration.Markup

open Text Report

variable {selectors : List Selector}

theorem Replaced.ne {change : Change} {old new : List Event} (h : Replaced change old new) :
    old ≠ new := by
  rintro rfl
  obtain ⟨lead, trail, -, -, -, hold, hnew⟩ := h.meaning
  have hsame := Except.ok.inj (hnew.symm.trans hold)
  rw [List.append_cancel_left_eq, List.append_cancel_right_eq] at hsame
  exact h.after_ne hsame

/-- Two fields that are the same events behind their start tags have the same parts. -/
theorem parts_inj {parts parts' old new : List Event} {name name' : List Char}
    (hparts : ∀ part ∈ parts, isContent part = true)
    (hparts' : ∀ part ∈ parts', isContent part = true)
    (h : parts ++ .closing name :: old = parts' ++ .closing name' :: new) :
    parts = parts' ∧ old = new := by
  induction parts generalizing parts' with
  | nil =>
    cases parts' with
    | nil => exact ⟨rfl, (List.cons.inj h).2⟩
    | cons part parts' =>
      have hpart := hparts' part List.mem_cons_self
      rw [← (List.cons.inj h).1] at hpart
      cases hpart
  | cons part parts ih =>
    have hpart := hparts part List.mem_cons_self
    cases parts' with
    | nil =>
      rw [(List.cons.inj h).1] at hpart
      cases hpart
    | cons part' parts' =>
      obtain ⟨rfl, hrest⟩ := List.cons.inj h
      obtain ⟨rfl, rfl⟩ := ih (fun p hp => hparts p (List.mem_cons_of_mem _ hp))
        (fun p hp => hparts' p (List.mem_cons_of_mem _ hp)) hrest
      exact ⟨rfl, rfl⟩

theorem Edited.changes_eq_nil {events events' : List Event} {changes : List Change}
    (h : Edited selectors events events' changes) (he : events = events') : changes = [] := by
  induction h with
  | nil => rfl
  | kept event _ ih => exact ih (List.cons.inj he).2
  | field _ _ hparts hparts' hr _ _ =>
    exact absurd (parts_inj hparts hparts' (List.cons.inj he).2).1 hr.ne

theorem Spelt.takeWhile_text {raw : List Char} {pieces : List Piece}
    (h : Spelt (⟨raw, .text raw⟩ :: pieces)) :
    (raw ++ pieces.flatMap Piece.raw).takeWhile (· != '<') = raw := by
  have hs : Spelling raw (.text raw) := h.spelling _ List.mem_cons_self
  have hraw : ∀ c ∈ raw, (c != '<') = true := fun c hc =>
    bne_iff_ne.2 fun he => notMem_of_spelling_text hs (he ▸ hc)
  have hrest : (pieces.flatMap Piece.raw).head?.all (· == '<') = true :=
    h.tail.all_head.2 (separate_cons.1 h.separate).1 rfl
  rw [List.takeWhile_append_of_pos hraw]
  cases hr : pieces.flatMap Piece.raw with
  | nil => simp
  | cons c rest =>
    rw [hr] at hrest
    have hc : c = '<' := by simpa using hrest
    simp [hc]

theorem sourceAll_ne_marked {pieces : List Piece} {events : List Event} (h : Spelt pieces)
    (hback : ReadsBack events) (hhead : events.head? = (pieces.map Piece.event).head?) :
    Event.sourceAll events ≠ byteOrderMark :: pieces.flatMap Piece.raw := by
  intro he
  have hm : (pieces.flatMap Piece.raw).head? = some byteOrderMark := by
    rw [← head_sourceAll h hhead, he]
    rfl
  obtain ⟨raw, rest, rfl⟩ := exists_marked h hm
  obtain ⟨others, rfl⟩ : ∃ others, events = .text (byteOrderMark :: raw) :: others := by
    cases events with
    | nil => cases hhead
    | cons event others => exact ⟨others, congrArg (· :: others) (Option.some.inj hhead)⟩
  -- The text up to the first bracket would be longer by the mark.
  have hlong := h.takeWhile_text
  have hshort : (Event.sourceAll (.text (byteOrderMark :: raw) :: others)).takeWhile (· != '<') =
      byteOrderMark :: raw := by
    have htext : (byteOrderMark :: raw ++ (others.map Piece.ofEvent).flatMap Piece.raw).takeWhile
        (· != '<') = byteOrderMark :: raw := hback.spelt.takeWhile_text
    rwa [flatMap_raw_ofEvent] at htext
  rw [he, List.takeWhile_cons_of_pos (by decide), List.flatMap_cons, hlong] at hshort
  exact absurd (congrArg List.length hshort) (by simp)

variable {σ : Type} {preferCdata : Bool} {transform : Transform σ} {document : List Char}
  {memory : σ} {d : ConvertedDocument}

theorem content_ne_of_changes
    (h : (convertFields selectors preferCdata transform document memory).result = .ok d)
    (hc : d.changes ≠ []) : d.content ≠ document := by
  intro he
  obtain ⟨hmark, hfirst⟩ := cutByteOrderMark_eq document
  obtain ⟨hsecond, hmarks⟩ := cutByteOrderMark_eq (cutByteOrderMark document).2
  rcases hmarks with hm | hm
  · obtain ⟨events, hread, -, hedited⟩ := readDocument_converted h hc hm
    rw [he] at hread
    exact hc (hedited.changes_eq_nil (congrArg Reading.events hread))
  · -- The second mark is lost, and nothing that is written makes up for it.
    obtain ⟨pieces, -, hspelt, hraw, -, -, ⟨stretches, hv, rfl, rfl, -⟩, hcontent⟩ :=
      convertFields_passed h
    refine sourceAll_ne_marked hspelt (readsBack_stretches hv hspelt.readsBack)
      (head_rereads stretches) ?_
    rw [if_neg hc, he] at hcontent
    rw [sourceAll_rereads, hraw]
    have hrest := hmark.trans hcontent
    rw [List.append_cancel_left_eq, ← hsecond, hm] at hrest
    exact hrest.symm

/-- A document comes back as it is exactly if nothing in it was changed. -/
theorem changes_eq_nil_iff
    (h : (convertFields selectors preferCdata transform document memory).result = .ok d) :
    d.changes = [] ↔ d.content = document := by
  constructor
  · intro hc
    rw [(convertFields_eq_ok h).2.2.2, if_pos hc]
  · intro he
    by_contra hc
    exact content_ne_of_changes h hc he

/-- The blank that the field gains is the one that its end tag loses. -/
theorem changes_eq_nil_iff_blank :
    let document := "<q>a</q >".toList
    let d : ConvertedDocument := ⟨"<q>a </q>".toList,
      [⟨"q".toList, 0, "a".toList, "a ".toList, false⟩]⟩
    (convertFields [⟨"q".toList, none⟩] false (Transform.ofPure fun _ => "a ".toList) document
        ()).result = .ok d ∧
      (d.changes = [] ↔ d.content = document) := by
  have h : (convertFields [⟨"q".toList, none⟩] false (Transform.ofPure fun _ => "a ".toList)
      "<q>a</q >".toList ()).result =
        .ok ⟨"<q>a </q>".toList, [⟨"q".toList, 0, "a".toList, "a ".toList, false⟩]⟩ := by
    decide +kernel
  exact ⟨h, changes_eq_nil_iff h⟩

end ReportMigration.Markup
