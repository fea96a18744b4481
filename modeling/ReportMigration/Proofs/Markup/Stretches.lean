import Mathlib
import ReportMigration.Proofs.Markup.FieldText

/-!
# Stretches of a converted document

A conversion passes over a document in stretches: a part that is written as it is, or a changed field
with its tags. One event at a time, what is written and the recorded changes are those of the
stretches passed so far, apart from a field whose end is not reached.
-/

namespace ReportMigration.Markup

open Text Report

/-- A part that is passed through, or a changed field: its start tag, its parts, what is written in
their place, its end tag and the recorded change. -/
inductive Stretch where
  | kept (piece : Piece)
  | field (start : Piece) (body : List Piece) (written : List Event) (stop : Piece) (change : Change)

namespace Stretch

def pieces : Stretch → List Piece
  | kept piece => [piece]
  | field start body _ stop _ => start :: (body ++ [stop])

def written : Stretch → List Event
  | kept piece => [piece.event]
  | field start _ written stop _ => start.event :: (written ++ [stop.event])

def changes : Stretch → List Change
  | kept _ => []
  | field _ _ _ _ change => [change]

/-- A changed field is an element that a selector selects, with nothing but text and CDATA inside. -/
inductive Valid (selectors : List Selector) : Stretch → Prop
  | kept (piece : Piece) : Valid selectors (kept piece)
  | field {start stop : Piece} {body : List Piece} {written : List Event} {change : Change}
    {tag name : List Char} {s : Selector} (hstart : start.event = .opening tag)
    (hs : selectors.find? (·.selects tag) = some s) (hfield : change.field = s.display)
    (hbody : ∀ piece ∈ body, isContent piece.event = true) (hstop : stop.event = .closing name)
    (hsettled : Settled change (body.map Piece.event) written) :
    Valid selectors (field start body written stop change)

end Stretch

/-- The pieces are cut into stretches, with what is written and the recorded changes. -/
def Passed (selectors : List Selector) (pieces : List Piece) (written : List Event)
    (changes : List Change) : Prop :=
  ∃ stretches : List Stretch, (∀ stretch ∈ stretches, stretch.Valid selectors) ∧
    stretches.flatMap Stretch.pieces = pieces ∧ stretches.flatMap Stretch.written = written ∧
    stretches.flatMap Stretch.changes = changes

variable {selectors : List Selector} {pieces others : List Piece} {written more : List Event}
  {changes later : List Change}

theorem Passed.nil : Passed selectors [] [] [] :=
  ⟨[], by simp, rfl, rfl, rfl⟩

theorem Passed.append (h : Passed selectors pieces written changes)
    (h' : Passed selectors others more later) :
    Passed selectors (pieces ++ others) (written ++ more) (changes ++ later) := by
  obtain ⟨front, hv, rfl, rfl, rfl⟩ := h
  obtain ⟨back, hv', rfl, rfl, rfl⟩ := h'
  refine ⟨front ++ back, fun stretch hs => ?_, List.flatMap_append, List.flatMap_append,
    List.flatMap_append⟩
  exact (List.mem_append.1 hs).elim (hv stretch) (hv' stretch)

theorem Passed.kept (selectors : List Selector) (pieces : List Piece) :
    Passed selectors pieces (pieces.map Piece.event) [] := by
  induction pieces with
  | nil => exact Passed.nil
  | cons piece pieces ih =>
    have hone : Passed selectors [piece] [piece.event] [] :=
      ⟨[.kept piece], by simpa using .kept piece, rfl, rfl, rfl⟩
    exact hone.append ih

theorem Passed.field {start stop : Piece} {body : List Piece} {change : Change}
    (h : (Stretch.field start body written stop change).Valid selectors) :
    Passed selectors (start :: (body ++ [stop])) (start.event :: (written ++ [stop.event])) [change] :=
  ⟨[.field start body written stop change], by simpa using h, by simp [Stretch.pieces],
    by simp [Stretch.written], by simp [Stretch.changes]⟩

variable {σ : Type} {p : Progress σ}

/-- No field is held back. -/
structure Outside (selectors : List Selector) (pieces : List Piece) (p : Progress σ) : Prop where
  passed : Passed selectors pieces p.written.toList p.changes.toList
  released : ∀ f, p.current = some f → f.mixed = true ∧ f.parts = []

/-- The parts of a field are held back. -/
structure Inside (selectors : List Selector) (front : List Piece) (start : Piece) (body : List Piece)
    (f : OpenField) (p : Progress σ) : Prop where
  passed : ∃ written, p.written.toList = written ++ [start.event] ∧
    Passed selectors front written p.changes.toList
  current : p.current = some f
  start : ∃ tag s, start.event = .opening tag ∧ selectors.find? (·.selects tag) = some s ∧
    f.field = s.display
  content : ∀ piece ∈ body, isContent piece.event = true
  parts : f.parts = body.map Piece.event
  mixed : f.mixed = false
  depth : f.depth = p.depth
  pos : 0 < p.depth

/-- How far a run has come. -/
def Reached (selectors : List Selector) (pieces : List Piece) (p : Progress σ) : Prop :=
  Outside selectors pieces p ∨
    ∃ front start body f, pieces = front ++ (start :: body) ∧
      Inside selectors front start body f p

theorem Outside.emit (h : Outside selectors pieces p) (piece : Piece) :
    Outside selectors (pieces ++ [piece]) (p.emit piece.event) := by
  refine ⟨?_, h.released⟩
  have hpassed := h.passed.append (Passed.kept selectors [piece])
  rw [List.append_nil] at hpassed
  simpa [Progress.emit] using hpassed

theorem Reached.release (h : Reached selectors pieces p) : Outside selectors pieces p.release := by
  rcases h with h | ⟨front, start, body, f, rfl, h⟩
  · unfold Progress.release
    split
    · exact h
    · next f hf =>
      obtain ⟨-, hparts⟩ := h.released f hf
      refine ⟨?_, ?_⟩
      · simpa [Progress.emitAll, hparts] using h.passed
      · rintro g hg
        cases hg
        exact ⟨rfl, rfl⟩
  · unfold Progress.release
    rw [h.current]
    obtain ⟨written, hw, hpassed⟩ := h.passed
    have hkept := hpassed.append (Passed.kept selectors (start :: body))
    rw [List.append_nil] at hkept
    refine ⟨?_, ?_⟩
    · simpa [Progress.emitAll, hw, h.parts] using hkept
    · rintro g hg
      cases hg
      exact ⟨rfl, rfl⟩

theorem Outside.enter (h : Outside selectors pieces p) {piece : Piece} {tag : List Char} (hp : piece.event = .opening tag) (hpos : 0 < p.depth) :
    Reached selectors (pieces ++ [piece]) ((p.enter selectors tag).emit piece.event) := by
  unfold Progress.enter
  split
  · exact .inl (h.emit piece)
  · next s hs =>
    refine .inr ⟨pieces, piece, [], ⟨s.display, p.seen, p.depth, [], false⟩, rfl,
      ⟨p.written.toList, ?_, h.passed⟩, rfl, ⟨tag, s, hp, hs, rfl⟩, ?_, rfl, rfl, rfl, hpos⟩
    · simp [Progress.emit]
    · simp

theorem not_settled_nil {change : Change} : ¬ Settled change [] written := by
  rintro ⟨raw, hraw, hbefore, hne, -⟩
  obtain rfl : [] = raw := Except.ok.inj hraw
  exact hne hbefore.symm

theorem Outside.settle (h : Outside selectors pieces p) {f : OpenField} (hf : p.current = some f)
    (preferCdata : Bool) (transform : Transform σ) :
    Outside selectors pieces { p.settle preferCdata transform f with current := none } := by
  obtain ⟨-, hparts⟩ := h.released f hf
  rcases p.settle_spec preferCdata transform f with ⟨-, hc, hw⟩ | ⟨change, written, -, hs, -⟩
  · refine ⟨?_, by simp⟩
    rw [hparts, List.append_nil] at hw
    dsimp only
    rw [hw, hc]
    exact h.passed
  · rw [hparts] at hs
    exact absurd hs not_settled_nil

theorem Inside.settle {front body : List Piece} {start : Piece} {f : OpenField}
    (h : Inside selectors front start body f p) (preferCdata : Bool) (transform : Transform σ)
    {piece : Piece} {name : List Char} (hp : piece.event = .closing name) :
    Outside selectors (front ++ (start :: body) ++ [piece])
      ({ p.settle preferCdata transform f with current := none }.emit piece.event) := by
  obtain ⟨before, hbefore, hpassed⟩ := h.passed
  obtain ⟨tag, s, hstart, hs, hfield⟩ := h.start
  refine ⟨?_, by simp [Progress.emit]⟩
  rcases p.settle_spec preferCdata transform f with
    ⟨-, hc, hw⟩ | ⟨change, written, hcf, hset, -, hc, hw⟩
  · have hkept := hpassed.append (Passed.kept selectors (start :: (body ++ [piece])))
    simpa [Progress.emit, hw, hc, hbefore, h.parts] using hkept
  · rw [h.parts] at hset
    have hvalid : (Stretch.field start body written piece change).Valid selectors :=
      .field hstart hs (hcf.trans hfield) h.content hp hset
    have hchanged := hpassed.append (Passed.field hvalid)
    simpa [Progress.emit, hw, hc, hbefore] using hchanged

theorem Outside.depth (h : Outside selectors pieces p) (depth : Nat) :
    Outside selectors pieces { p with depth := depth } :=
  ⟨h.passed, h.released⟩

theorem Progress.release_depth (p : Progress σ) (depth : Nat) :
    { p with depth := depth }.release = { p.release with depth := depth } := by
  unfold Progress.release
  dsimp only
  split <;> rfl

theorem Reached.outside_of_none (h : Reached selectors pieces p) (hc : p.current = none) :
    Outside selectors pieces p := by
  rcases h with h | ⟨_, _, _, f, _, h⟩
  · exact h
  · rw [h.current] at hc
    cases hc

theorem Reached.opening (h : Reached selectors pieces p) (preferCdata : Bool)
    (transform : Transform σ) {piece : Piece} {tag : List Char} (he : piece.event = .opening tag) :
    Reached selectors (pieces ++ [piece]) (p.step selectors preferCdata transform (.opening tag)) := by
  rw [Progress.step, ← he]
  dsimp only
  split
  · rw [Progress.release_depth]
    exact .inl ((h.release.depth _).emit piece)
  · next hc =>
    have hnone : p.current = none := by simpa using hc
    exact ((h.outside_of_none hnone).depth (p.depth + 1)).enter he (Nat.succ_pos _)

theorem Reached.closing (h : Reached selectors pieces p) (preferCdata : Bool)
    (transform : Transform σ) {piece : Piece} {name : List Char} (he : piece.event = .closing name) :
    Reached selectors (pieces ++ [piece]) (p.step selectors preferCdata transform (.closing name)) := by
  rw [Progress.step, ← he]
  dsimp only
  rcases h with h | ⟨front, start, body, f, rfl, h⟩
  · split
    · exact .inl ((h.emit piece).depth (p.depth - 1))
    · next f hf =>
      split
      · exact .inl (((h.settle hf preferCdata transform).emit piece).depth _)
      · exact .inl ((h.emit piece).depth (p.depth - 1))
  · rw [h.current]
    dsimp only
    rw [if_pos h.depth]
    exact .inl ((h.settle preferCdata transform he).depth _)

/-- Text and CDATA are held back inside a field. -/
def Progress.hold (p : Progress σ) (event : Event) : Progress σ :=
  match p.current with
  | none => p.emit event
  | some f =>
    if f.mixed then p.emit event
    else { p with current := some { f with parts := f.parts ++ [event] } }

theorem Reached.hold (h : Reached selectors pieces p) {piece : Piece}
    (he : isContent piece.event = true) :
    Reached selectors (pieces ++ [piece]) (p.hold piece.event) := by
  unfold Progress.hold
  rcases h with h | ⟨front, start, body, f, rfl, h⟩
  · refine .inl ?_
    split
    · exact h.emit piece
    · next f hf =>
      rw [if_pos (h.released f hf).1]
      exact h.emit piece
  · rw [h.current]
    dsimp only
    rw [if_neg (by simp [h.mixed])]
    refine .inr ⟨front, start, body ++ [piece], _, by simp,
      ⟨h.passed, rfl, h.start, ?_, ?_, h.mixed, h.depth, h.pos⟩⟩
    · intro other ho
      rcases List.mem_append.1 ho with ho | ho
      · exact h.content other ho
      · exact List.mem_singleton.1 ho ▸ he
    · rw [h.parts, List.map_append]
      rfl

theorem Reached.step (h : Reached selectors pieces p) (preferCdata : Bool) (transform : Transform σ)
    (piece : Piece) :
    Reached selectors (pieces ++ [piece]) (p.step selectors preferCdata transform piece.event) := by
  have hheld : isContent piece.event = true →
      Reached selectors (pieces ++ [piece]) (p.hold piece.event) := h.hold
  have hother : Reached selectors (pieces ++ [piece]) (p.release.emit piece.event) :=
    .inl (h.release.emit piece)
  cases he : piece.event with
  | opening tag => exact h.opening preferCdata transform he
  | closing name => exact h.closing preferCdata transform he
  | text raw =>
    rw [he] at hheld
    exact hheld rfl
  | cdata raw =>
    rw [he] at hheld
    exact hheld rfl
  | _ =>
    rw [he] at hother
    exact hother

theorem Reached.run (h : Reached selectors pieces p) (preferCdata : Bool) (transform : Transform σ)
    (others : List Piece) :
    Reached selectors (pieces ++ others)
      ((others.map Piece.event).foldl (Progress.step selectors preferCdata transform) p) := by
  induction others generalizing pieces p with
  | nil => rwa [List.append_nil]
  | cons piece others ih =>
    have hrest := ih (h.step preferCdata transform piece)
    rwa [List.append_assoc] at hrest

theorem reached_initial (selectors : List Selector) (memory : σ) :
    Reached selectors [] (Progress.initial memory) :=
  .inl ⟨Passed.nil, by simp [Progress.initial]⟩

theorem Reached.passed (h : Reached selectors pieces p) (hd : p.depth = 0) :
    Passed selectors pieces p.written.toList p.changes.toList := by
  rcases h with h | ⟨_, _, _, f, _, h⟩
  · exact h.passed
  · exact absurd h.pos (by omega)

theorem Progress.depth_release (p : Progress σ) : p.release.depth = p.depth := by
  unfold Progress.release
  split <;> rfl

theorem Progress.depth_enter (p : Progress σ) (selectors : List Selector) (tag : List Char) :
    (p.enter selectors tag).depth = p.depth := by
  unfold Progress.enter
  split <;> rfl

theorem Progress.depth_hold (p : Progress σ) (event : Event) : (p.hold event).depth = p.depth := by
  unfold Progress.hold
  split
  · rfl
  · split <;> rfl

theorem Progress.depth_step (p : Progress σ) (preferCdata : Bool) (transform : Transform σ)
    {event : Event} {names names' : List (List Char)} (hn : nest names event = .ok names')
    (hd : p.depth = names.length) :
    (p.step selectors preferCdata transform event).depth = names'.length := by
  cases event with
  | opening tag =>
    obtain rfl := Except.ok.inj hn
    have hnext : p.depth + 1 = names.length + 1 := congrArg (· + 1) hd
    rw [Progress.step]
    dsimp only
    split
    · exact (Progress.depth_release _).trans hnext
    · exact (Progress.depth_enter _ selectors tag).trans hnext
  | closing name =>
    have hlast : p.depth - 1 = names'.length := by
      cases names with
      | nil => cases hn
      | cons expected outer =>
        rw [nest] at hn
        split at hn
        · obtain rfl := Except.ok.inj hn
          rw [hd, List.length_cons, Nat.add_sub_cancel]
        · cases hn
    rw [Progress.step]
    dsimp only
    split
    · exact hlast
    · next f _ =>
      split
      · exact (congrArg (· - 1) (p.settle_depth preferCdata transform f)).trans hlast
      · exact hlast
  | text raw =>
    obtain rfl := Except.ok.inj hn
    exact (p.depth_hold _).trans hd
  | cdata raw =>
    obtain rfl := Except.ok.inj hn
    exact (p.depth_hold _).trans hd
  | _ =>
    obtain rfl := Except.ok.inj hn
    exact p.depth_release.trans hd

theorem Progress.depth_run (p : Progress σ) (selectors : List Selector) (preferCdata : Bool)
    (transform : Transform σ) {events : List Event} {names names' : List (List Char)} (hn : events.foldlM nest names = .ok names')
    (hd : p.depth = names.length) :
    (events.foldl (Progress.step selectors preferCdata transform) p).depth = names'.length := by
  induction events generalizing names p with
  | nil =>
    obtain rfl := Except.ok.inj hn
    exact hd
  | cons event events ih =>
    rw [List.foldlM_cons] at hn
    cases he : nest names event with
    | error fault =>
      rw [he] at hn
      cases hn
    | ok inner =>
      rw [he] at hn
      exact ih (p.step selectors preferCdata transform event) hn
        (p.depth_step preferCdata transform he hd)

/-- The reading of a document, without the byte order marks that it starts with. -/
def readDocument (document : List Char) : Reading :=
  read (cutByteOrderMark (cutByteOrderMark document).2).2

/-- The state after the last event of a document. -/
def lastProgress (selectors : List Selector) (preferCdata : Bool) (transform : Transform σ)
    (document : List Char) (memory : σ) : Progress σ :=
  (readDocument document).events.foldl (Progress.step selectors preferCdata transform)
    (Progress.initial memory)

theorem convertFields_eq_ok {preferCdata : Bool} {transform : Transform σ} {document : List Char}
    {memory : σ} {d : ConvertedDocument}
    (h : (convertFields selectors preferCdata transform document memory).result = .ok d) :
    let last := lastProgress selectors preferCdata transform document memory
    (readDocument document).fault = none ∧ last.depth = 0 ∧ d.changes = last.changes.toList ∧
      d.content = if d.changes = [] then document
        else (cutByteOrderMark document).1 ++ Event.sourceAll last.written.toList := by
  intro last
  rw [convertFields] at h
  dsimp only at h
  split at h
  · cases h
  · next hfault =>
    split at h
    · cases h
    · next hdepth =>
      refine ⟨hfault, not_not.1 hdepth, ?_⟩
      split at h
      · next hc =>
        obtain rfl := Except.ok.inj h
        have hnil : last.changes.toList = [] := Array.toList_eq_nil_iff.2 (Array.isEmpty_iff.1 hc)
        exact ⟨hnil.symm, (if_pos rfl).symm⟩
      · next hc =>
        obtain rfl := Except.ok.inj h
        have hne : last.changes.toList ≠ [] :=
          fun hnil => hc (Array.isEmpty_iff.2 (Array.toList_eq_nil_iff.1 hnil))
        exact ⟨rfl, (if_neg hne).symm⟩

theorem convertFields_passed {preferCdata : Bool} {transform : Transform σ} {document : List Char}
    {memory : σ} {d : ConvertedDocument}
    (h : (convertFields selectors preferCdata transform document memory).result = .ok d) :
    ∃ pieces written, Spelt pieces ∧
      pieces.flatMap Piece.raw = (cutByteOrderMark (cutByteOrderMark document).2).2 ∧
      pieces.map Piece.event = (readDocument document).events ∧
      (pieces.map Piece.event).foldlM nest [] = .ok [] ∧
      Passed selectors pieces written d.changes ∧
      d.content = if d.changes = [] then document
        else (cutByteOrderMark document).1 ++ Event.sourceAll written := by
  obtain ⟨hfault, hdepth, hchanges, hcontent⟩ := convertFields_eq_ok h
  obtain ⟨pieces, hspelt, hraw, hevents, names, hnest⟩ := exists_spelt hfault
  have hrun := (reached_initial selectors memory).run preferCdata transform pieces
  have hlast : (pieces.map Piece.event).foldl (Progress.step selectors preferCdata transform)
      (Progress.initial memory) = lastProgress selectors preferCdata transform document memory := by
    rw [hevents]
    rfl
  have hnames : names = [] := by
    have hcount := (Progress.initial memory).depth_run selectors preferCdata transform hnest rfl
    rw [hlast, hdepth] at hcount
    exact List.length_eq_zero_iff.1 hcount.symm
  rw [hlast] at hrun
  rw [hnames] at hnest
  refine ⟨pieces, _, hspelt, hraw, hevents, hnest, ?_, hcontent⟩
  rw [hchanges]
  exact hrun.passed hdepth

end ReportMigration.Markup
