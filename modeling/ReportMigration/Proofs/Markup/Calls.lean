import Mathlib
import ReportMigration.Proofs.Markup.Treatments

/-!
# The calls of the transform

A conversion calls the transform once for each field with a text, in the order of the document. The
changes are the calls with another answer than their argument.
-/

namespace ReportMigration.Markup

open Text Report

variable {selectors : List Selector} {preferCdata : Bool} {σ : Type} {transform : Transform σ}
  {memory last : σ} {fields : List NumberedField} {treatments : List Treatment}

theorem index_fieldsFrom (n : Nat) (portions : List Portion) :
    (fieldsFrom n portions).map NumberedField.index =
      List.range' n (fieldsFrom n portions).length := by
  induction portions generalizing n with
  | nil => rfl
  | cons portion portions ih =>
    cases portion with
    | plain piece => exact ih n
    | field s start inside stop => exact congrArg (n :: ·) (ih (n + 1))

/-- What is said of some of the fields with their numbers keeps their order. -/
theorem index_collect {α : Type} {say : NumberedField → Treatment → Option α} {index : α → Nat}
    (h : ∀ f treatment a, say f treatment = some a → index a = f.index)
    (fields : List NumberedField) (treatments : List Treatment) :
    ((collect say fields treatments).map index).Sublist (fields.map NumberedField.index) := by
  induction fields generalizing treatments with
  | nil => exact List.nil_sublist _
  | cons f fields ih =>
    cases treatments with
    | nil => exact List.nil_sublist _
    | cons treatment treatments =>
      rw [collect_cons, List.map_append, List.map_cons]
      cases hsay : say f treatment with
      | none => exact (ih treatments).cons _
      | some a => exact h f treatment a hsay ▸ (ih treatments).cons_cons _

theorem index_change? (f : NumberedField) (treatment : Treatment) (change : Change)
    (h : f.change? preferCdata treatment = some change) : change.index = f.index := by
  cases treatment with
  | called raw answer =>
    rw [NumberedField.change?] at h
    split at h
    · cases h
    · cases h
      rfl
  | _ => cases h

/-- The answers to texts that a transform is called with one after the other, and its memory after
that. -/
def callAll {σ : Type} (transform : Transform σ) : σ → List (List Char) → List (List Char) × σ
  | memory, [] => ([], memory)
  | memory, text :: texts =>
    let (answer, next) := transform text memory
    let (answers, last) := callAll transform next texts
    (answer :: answers, last)

theorem TreatsEach.callAll_eq (h : TreatsEach transform memory fields treatments last) :
    callAll transform memory ((collect NumberedField.call? fields treatments).map
        FieldCall.argument) =
      ((collect NumberedField.call? fields treatments).map FieldCall.answer, last) := by
  induction h with
  | nil => rfl
  | cons first _ ih =>
    rw [collect_cons]
    cases first with
    | called _ _ _ =>
      rw [NumberedField.call?, Option.toList_some, List.singleton_append, List.map_cons, List.map_cons,
        callAll]
      dsimp only
      rw [ih]
    | _ => exact ih

def callOf (change : Change) : FieldCall :=
  ⟨change.index, change.before, change.after⟩

theorem callOf_change? (f : NumberedField) (treatment : Treatment) :
    (f.change? preferCdata treatment).map callOf =
      (f.call? treatment).filter fun call => call.answer ≠ call.argument := by
  cases treatment with
  | called raw answer =>
    rw [NumberedField.change?, NumberedField.call?]
    split
    · next hsame => simp [Option.filter, hsame]
    · next hother => simp [Option.filter, hother, callOf]
  | _ => rfl

theorem callOf_changes (preferCdata : Bool) (fields : List NumberedField)
    (treatments : List Treatment) :
    (collect (·.change? preferCdata) fields treatments).map callOf =
      (collect NumberedField.call? fields treatments).filter
        fun call => call.answer ≠ call.argument := by
  rw [collect, collect, List.map_filterMap, List.filter_filterMap]
  exact List.filterMap_congr fun pair _ => callOf_change? pair.1 pair.2

theorem Spelling.eq_source {raw : List Char} {event : Event} (h : Spelling raw event)
    (hc : isContent event = true) : raw = event.source := by
  cases h with
  | same => rfl
  | _ => cases hc

/-- What is inside of a field that is not changed stays exactly if each tag and each document type
there was written the way it is written back. -/
theorem sourceAll_eq_raw_iff {pieces : List Piece}
    (h : ∀ piece ∈ pieces, Spelling piece.raw piece.event) :
    Event.sourceAll (pieces.map Piece.event) = pieces.flatMap Piece.raw ↔
      ∀ piece ∈ pieces, isContent piece.event = false → piece.Exact := by
  have hapart : ∀ run ∈ pieces.map fun piece => (piece.raw, piece.event.source), Apart run := by
    intro run hr
    obtain ⟨piece, hp, rfl⟩ := List.mem_map.1 hr
    exact (h piece hp).apart
  have hruns := flatMap_eq_iff hapart
  rw [List.flatMap_map, List.flatMap_map, List.forall_mem_map] at hruns
  rw [Event.sourceAll, List.flatMap_map, eq_comm, hruns]
  refine forall₂_congr fun piece hp => ?_
  cases hc : isContent piece.event with
  | false => exact ⟨fun he _ => he, fun he => he rfl⟩
  | true => exact iff_of_true ((h piece hp).eq_source hc) (Bool.noConfusion ·)

variable {document : List Char} {d : ConvertedDocument}

/-- What a conversion does to the portions of a document with the treatments of their fields. -/
structure TreatedAs (selectors : List Selector) (preferCdata : Bool) (transform : Transform σ)
    (document : List Char) (memory : σ) (d : ConvertedDocument) (skipped : List Skipped) (last : σ)
    (portions : List Portion) (treatments : List Treatment) : Prop where
  /-- The portions are those of the document, behind its byte order marks. -/
  valid : ∀ portion ∈ portions, portion.Valid selectors
  spelt : Spelt (portions.flatMap Portion.pieces)
  raw : document = (cutByteOrderMark document).1 ++
    ((cutByteOrderMark (cutByteOrderMark document).2).1 ++
      (portions.flatMap Portion.pieces).flatMap Piece.raw)
  /-- The fields are treated in their order, with the warnings and changes that belong to that. -/
  treats : TreatsEach transform memory (fieldsFrom 0 portions) treatments last
  skipped : skipped = collect NumberedField.warning? (fieldsFrom 0 portions) treatments
  changes : d.changes = collect (·.change? preferCdata) (fieldsFrom 0 portions) treatments
  /-- Nothing is written but what the treatments ask for. -/
  content : d.content = if d.changes = [] then document
    else (cutByteOrderMark document).1 ++ Event.sourceAll (splice portions
      (List.zipWith (·.written preferCdata) (fieldsFrom 0 portions) treatments))

theorem exists_treatedAs
    (h : (convertFields selectors preferCdata transform document memory).result = .ok d) :
    ∃ portions treatments, TreatedAs selectors preferCdata transform document memory d
      (convertFields selectors preferCdata transform document memory).skipped
      (convertFields selectors preferCdata transform document memory).memory
      portions treatments := by
  obtain ⟨-, -, hchanges, hcontent⟩ := convertFields_eq_ok h
  obtain ⟨pieces, -, hspelt, hraw, hevents, hnest, -⟩ := convertFields_passed h
  obtain ⟨portions, hv, rfl⟩ := exists_portions selectors hnest
  obtain ⟨treatments, last, htreats⟩ := exists_treatsEach transform memory (fieldsFrom 0 portions)
  obtain ⟨hwritten, hchanged, hskipped, hmemory⟩ :=
    Progress.run_portions (p := Progress.initial memory) preferCdata rfl hv htreats
  have hlast : ((portions.flatMap Portion.pieces).map Piece.event).foldl
      (Progress.step selectors preferCdata transform) (Progress.initial memory) =
        lastProgress selectors preferCdata transform document memory := by
    rw [hevents]
    rfl
  rw [hlast] at hwritten hchanged hskipped hmemory
  subst hmemory
  refine ⟨portions, treatments, hv, hspelt, ?_, htreats, hskipped, hchanges.trans hchanged, ?_⟩
  · rw [hraw, (cutByteOrderMark_eq _).1, (cutByteOrderMark_eq document).1]
  · rw [hcontent, hwritten]
    rfl

/-- A converted document is cut in one way into its fields and what is outside of them, and each
field, numbered from zero on, is treated in one way. The transform is called for the fields with a
text, in their order, and the changes are the calls with another answer. A field that is not changed
stays exactly if each tag and each document type inside of it was written the way it is written
back. -/
theorem fields_treated
    (h : (convertFields selectors preferCdata transform document memory).result = .ok d) :
    ∃ portions treatments, TreatedAs selectors preferCdata transform document memory d
        (convertFields selectors preferCdata transform document memory).skipped
        (convertFields selectors preferCdata transform document memory).memory
        portions treatments ∧
      (∀ others : List Portion, (∀ portion ∈ others, portion.Valid selectors) →
        others.flatMap Portion.pieces = portions.flatMap Portion.pieces → others = portions) ∧
      (∀ others last, TreatsEach transform memory (fieldsFrom 0 portions) others last →
        others = treatments) ∧
      let fields := fieldsFrom 0 portions
      let calls := collect NumberedField.call? fields treatments
      fields.map NumberedField.index = List.range fields.length ∧
      callAll transform memory (calls.map FieldCall.argument) = (calls.map FieldCall.answer,
        (convertFields selectors preferCdata transform document memory).memory) ∧
      d.changes.map callOf = calls.filter (fun call => call.answer ≠ call.argument) ∧
      (d.changes.map Change.index).Pairwise (· < ·) ∧
      ∀ s start inside stop, Portion.field s start inside stop ∈ portions →
        (Event.sourceAll (inside.map Piece.event) = inside.flatMap Piece.raw ↔
          ∀ piece ∈ inside, isContent piece.event = false → piece.Exact) := by
  obtain ⟨portions, treatments, htreated⟩ := exists_treatedAs h
  have hindex := index_fieldsFrom 0 portions
  rw [← List.range_eq_range'] at hindex
  refine ⟨portions, treatments, htreated, fun others hothers he => ?_, fun others last hothers => ?_,
    hindex, htreated.treats.callAll_eq, ?_, ?_, fun s start inside stop hmem => ?_⟩
  · exact portions_unique hothers htreated.valid he
  · exact (htreated.treats.unique hothers).1
  · rw [htreated.changes]
    exact callOf_changes preferCdata _ treatments
  · have hincreasing : ((fieldsFrom 0 portions).map NumberedField.index).Pairwise (· < ·) := by
      rw [hindex]
      exact List.pairwise_lt_range
    rw [htreated.changes]
    exact hincreasing.sublist (index_collect index_change? _ treatments)
  · refine sourceAll_eq_raw_iff fun piece hp => htreated.spelt.spelling piece ?_
    exact List.mem_flatMap.2 ⟨_, hmem, by simp [Portion.pieces, hp]⟩

/-- A field with an element inside, a blank one, one with an unknown entity, one with a blank that is
written as a reference, and one that is changed. -/
theorem fields_treated_five :
    let selectors : List Selector := [⟨"q".toList, none⟩]
    let transform := Transform.ofPure fun _ => "c".toList
    let document := "<r><q>a<b></b ></q><q> </q><q>&x;</q><q>&#32;</q><q>b</q></r>".toList
    let d : ConvertedDocument :=
      ⟨"<r><q>a<b></b></q><q> </q><q>&x;</q><q>&#32;</q><q>c</q></r>".toList,
        [⟨"q".toList, 4, "b".toList, "c".toList, false⟩]⟩
    (convertFields selectors false transform document ()).result = .ok d ∧
    ∃ portions treatments, TreatedAs selectors false transform document () d
        (convertFields selectors false transform document ()).skipped
        (convertFields selectors false transform document ()).memory portions treatments ∧
      (∀ others : List Portion, (∀ portion ∈ others, portion.Valid selectors) →
        others.flatMap Portion.pieces = portions.flatMap Portion.pieces → others = portions) ∧
      (∀ others last, TreatsEach transform () (fieldsFrom 0 portions) others last →
        others = treatments) ∧
      let fields := fieldsFrom 0 portions
      let calls := collect NumberedField.call? fields treatments
      fields.map NumberedField.index = List.range fields.length ∧
      callAll transform () (calls.map FieldCall.argument) = (calls.map FieldCall.answer,
        (convertFields selectors false transform document ()).memory) ∧
      d.changes.map callOf = calls.filter (fun call => call.answer ≠ call.argument) ∧
      (d.changes.map Change.index).Pairwise (· < ·) ∧
      ∀ s start inside stop, Portion.field s start inside stop ∈ portions →
        (Event.sourceAll (inside.map Piece.event) = inside.flatMap Piece.raw ↔
          ∀ piece ∈ inside, isContent piece.event = false → piece.Exact) := by
  have h : (convertFields [⟨"q".toList, none⟩] false (Transform.ofPure fun _ => "c".toList)
      "<r><q>a<b></b ></q><q> </q><q>&x;</q><q>&#32;</q><q>b</q></r>".toList ()).result =
        .ok ⟨"<r><q>a<b></b></q><q> </q><q>&x;</q><q>&#32;</q><q>c</q></r>".toList,
          [⟨"q".toList, 4, "b".toList, "c".toList, false⟩]⟩ := by
    decide +kernel
  exact ⟨h, fields_treated h⟩

/-- White space after the name of an end tag inside of a field with an element is lost when another
field is changed, so the first one does not stay as it is. -/
theorem content_ne_with_field :
    ∃ d, (convertFields [⟨"q".toList, none⟩] false (Transform.ofPure fun _ => "c".toList)
        "<r><q>a<b></b ></q><q>b</q></r>".toList ()).result = .ok d ∧
      d.changes.map Change.index = [1] ∧
      ∀ inside, d.content ≠ "<r><q>a<b></b ></q><q>".toList ++ (inside ++ "</q></r>".toList) := by
  refine ⟨⟨"<r><q>a<b></b></q><q>c</q></r>".toList, [⟨"q".toList, 1, "b".toList, "c".toList, false⟩]⟩,
    by decide +kernel, by decide, fun inside he => ?_⟩
  -- The two begin differently.
  have hfront := congrArg (List.take 14) he
  rw [List.take_append_of_le_length (by decide)] at hfront
  exact absurd hfront (by decide)

end ReportMigration.Markup
