import Mathlib
import ReportMigration.Proofs.Markup.SideBySide

/-!
# The order of selectors

The selectors of a conversion count as a set. In which order they are tried, and how often, decides
only under whose name a field is shown: that of the first one that selects its start tag.
-/

namespace ReportMigration.Markup

open Text Report

def OpenField.unnamed (f : OpenField) : OpenField :=
  { f with field := [] }

def Skipped.unnamed (s : Skipped) : Skipped :=
  { s with field := [] }

namespace Progress

variable {σ : Type}

/-- What is the same for all selectors that select a start tag. -/
def unnamed (p : Progress σ) : Progress σ :=
  { p with
    current := p.current.map OpenField.unnamed
    changes := p.changes.map fun change => { change with field := [] }
    skipped := p.skipped.map Skipped.unnamed }

variable {selectors others : List Selector} {preferCdata : Bool} {transform : Transform σ}
  {p : Progress σ}

theorem unnamed_emit (p : Progress σ) (event : Event) :
    (p.emit event).unnamed = p.unnamed.emit event :=
  rfl

theorem unnamed_release (p : Progress σ) : p.release.unnamed = p.unnamed.release := by
  obtain ⟨depth, seen, current, written, changes, skipped, memory⟩ := p
  cases current <;> rfl

theorem unnamed_settle (p : Progress σ) (f : OpenField) :
    (p.settle preferCdata transform f).unnamed =
      p.unnamed.settle preferCdata transform f.unnamed := by
  unfold settle
  dsimp only [OpenField.unnamed, unnamed, emitAll]
  cases decodeParts (Body.ofParts f.parts).core with
  | error reason => simp [Skipped.unnamed]
  | ok raw =>
    dsimp only
    split
    · rfl
    · split
      · rfl
      · simp

theorem unnamed_unnamed (p : Progress σ) : p.unnamed.unnamed = p.unnamed := by
  have hcurrent : (p.current.map OpenField.unnamed).map OpenField.unnamed =
      p.current.map OpenField.unnamed := by
    cases p.current <;> rfl
  simp [unnamed, hcurrent, Function.comp_def, Skipped.unnamed]

theorem find?_eq_none_congr (same : ∀ s, s ∈ selectors ↔ s ∈ others) (tag : List Char) :
    selectors.find? (·.selects tag) = none ↔ others.find? (·.selects tag) = none := by
  simp only [List.find?_eq_none, same]

theorem unnamed_enter (same : ∀ s, s ∈ selectors ↔ s ∈ others) (p : Progress σ) (tag : List Char) :
    (p.enter selectors tag).unnamed = (p.unnamed.enter others tag).unnamed := by
  have hnone := find?_eq_none_congr same tag
  unfold enter
  cases hs : selectors.find? (·.selects tag) with
  | none =>
    rw [hnone.1 hs]
    exact p.unnamed_unnamed.symm
  | some s =>
    obtain ⟨other, hother⟩ := Option.ne_none_iff_exists'.1 (mt hnone.2 (by simp [hs]))
    rw [hother]
    simp [unnamed, Function.comp_def, OpenField.unnamed, Skipped.unnamed]

theorem unnamed_hold (p : Progress σ) (event : Event) :
    (p.hold event).unnamed = p.unnamed.hold event := by
  obtain ⟨depth, seen, current, written, changes, skipped, memory⟩ := p
  cases current with
  | none => rfl
  | some f => cases hmixed : f.mixed <;> simp [hold, unnamed, OpenField.unnamed, hmixed, emit]

theorem unnamed_opening (same : ∀ s, s ∈ selectors ↔ s ∈ others) (p : Progress σ)
    (tag : List Char) :
    (p.step selectors preferCdata transform (.opening tag)).unnamed =
      (p.unnamed.step others preferCdata transform (.opening tag)).unnamed := by
  have hsome : p.unnamed.current.isSome = p.current.isSome := Option.isSome_map
  have hnext : ({ p.unnamed with depth := p.depth + 1 } : Progress σ).unnamed =
      { p.unnamed with depth := p.depth + 1 } :=
    congrArg (fun q : Progress σ => { q with depth := p.depth + 1 }) p.unnamed_unnamed
  rw [step, step]
  dsimp only
  rw [hsome]
  split
  · rw [unnamed_emit, unnamed_emit, unnamed_release, unnamed_release]
    exact congrArg (fun q : Progress σ => q.release.emit (.opening tag)) hnext.symm
  · rw [unnamed_emit, unnamed_emit]
    exact congrArg (emit · (.opening tag))
      (unnamed_enter same { p with depth := p.depth + 1 } tag)

theorem unnamed_closing (p : Progress σ) (name : List Char) :
    (p.step selectors preferCdata transform (.closing name)).unnamed =
      p.unnamed.step others preferCdata transform (.closing name) := by
  rw [step, step]
  dsimp only
  cases hc : p.current with
  | none =>
    have hnone : p.unnamed.current = none := by rw [unnamed, hc, Option.map_none]
    rw [hnone]
    rfl
  | some f =>
    have hsome : p.unnamed.current = some f.unnamed := by rw [unnamed, hc, Option.map_some]
    have hsame : f.unnamed.depth = f.depth ∧ p.unnamed.depth = p.depth := ⟨rfl, rfl⟩
    rw [hsome]
    dsimp only
    rw [hsame.1, hsame.2]
    split
    · rw [← unnamed_settle]
      rfl
    · rfl

/-- With the same selectors in another order one event does the same but for names. -/
theorem unnamed_step (same : ∀ s, s ∈ selectors ↔ s ∈ others) (p : Progress σ) (event : Event) :
    (p.step selectors preferCdata transform event).unnamed =
      (p.unnamed.step others preferCdata transform event).unnamed := by
  -- Other events than start tags do not ask the selectors.
  have hother : (p.step selectors preferCdata transform event).unnamed =
      p.unnamed.step others preferCdata transform event →
        (p.step selectors preferCdata transform event).unnamed =
          (p.unnamed.step others preferCdata transform event).unnamed := by
    intro h
    rw [← h, unnamed_unnamed]
  cases event with
  | opening tag => exact unnamed_opening same p tag
  | closing name => exact hother (unnamed_closing p name)
  | text raw => exact hother (unnamed_hold p _)
  | cdata raw => exact hother (unnamed_hold p _)
  | _ => exact hother (congrArg (emit · _) p.unnamed_release)

theorem unnamed_run (same : ∀ s, s ∈ selectors ↔ s ∈ others) {p q : Progress σ}
    (h : p.unnamed = q.unnamed) (events : List Event) :
    (events.foldl (step selectors preferCdata transform) p).unnamed =
      (events.foldl (step others preferCdata transform) q).unnamed := by
  induction events generalizing p q with
  | nil => exact h
  | cons event events ih =>
    refine ih ?_
    rw [unnamed_step same, h, ← unnamed_step fun _ => Iff.rfl]

end Progress

/-- The start tags of the outermost selected elements, in their order. So many elements are open
from such an element on, if one is open. -/
def fieldTags (selectors : List Selector) : Nat → List Event → List (List Char)
  | _, [] => []
  | 0, .opening tag :: events =>
    if selectors.any (·.selects tag) then tag :: fieldTags selectors 1 events
    else fieldTags selectors 0 events
  | n + 1, .opening _ :: events => fieldTags selectors (n + 2) events
  | n + 1, .closing _ :: events => fieldTags selectors n events
  | n, _ :: events => fieldTags selectors n events

/-- The name of the first selector that selects the start tag of a field, given those of all. -/
def firstName (selectors : List Selector) (tags : List (List Char)) (index : Nat) :
    Option (List Char) :=
  (tags[index]?.bind fun tag => selectors.find? (·.selects tag)).map Selector.display

variable {selectors others : List Selector} {preferCdata : Bool} {σ : Type}
  {transform : Transform σ} {p : Progress σ} {tags : List (List Char)} {n : Nat}

theorem fieldTags_congr (same : ∀ s, s ∈ selectors ↔ s ∈ others) (n : Nat) (events : List Event) :
    fieldTags selectors n events = fieldTags others n events := by
  have hany : ∀ tag, selectors.any (·.selects tag) = others.any (·.selects tag) := by
    intro tag
    rw [Bool.eq_iff_iff, List.any_eq_true, List.any_eq_true]
    simp only [same]
  fun_induction fieldTags selectors n events <;> simp_all [fieldTags]

theorem firstName_append {index : Nat} {name : List Char}
    (h : firstName selectors tags index = some name) (more : List (List Char)) :
    firstName selectors (tags ++ more) index = some name := by
  rw [firstName] at h ⊢
  cases htag : tags[index]? with
  | none =>
    rw [htag] at h
    cases h
  | some tag =>
    rw [htag] at h
    rw [List.getElem?_append_left (List.getElem?_eq_some_iff.1 htag).1, htag]
    exact h

/-- After the fields with the given start tags, with so many elements open from the last one on,
each field is shown under the name of the first selector that selects it. -/
structure ShowsFirst (selectors : List Selector) (tags : List (List Char)) (n : Nat)
    (p : Progress σ) : Prop where
  seen : p.seen = tags.length
  outside : p.current = none → n = 0
  inside : ∀ f, p.current = some f → f.depth + n = p.depth + 1 ∧ 0 < n
  current : ∀ f, p.current = some f → firstName selectors tags f.index = some f.field
  changes : ∀ change ∈ p.changes.toList, firstName selectors tags change.index = some change.field
  skipped : ∀ skip ∈ p.skipped.toList, firstName selectors tags skip.index = some skip.field

namespace ShowsFirst

theorem emit (h : ShowsFirst selectors tags n p) (event : Event) :
    ShowsFirst selectors tags n (p.emit event) :=
  ⟨h.seen, h.outside, h.inside, h.current, h.changes, h.skipped⟩

theorem refill (h : ShowsFirst selectors tags n p) {f : OpenField} (hf : p.current = some f)
    (written : Array Event) (parts : List Event) (mixed : Bool) :
    ShowsFirst selectors tags n
      { p with current := some { f with parts := parts, mixed := mixed }, written := written } := by
  refine ⟨h.seen, nofun, ?_, ?_, h.changes, h.skipped⟩
  · rintro _ ⟨⟩
    exact h.inside f hf
  · rintro _ ⟨⟩
    exact h.current f hf

theorem release (h : ShowsFirst selectors tags n p) : ShowsFirst selectors tags n p.release := by
  unfold Progress.release
  split
  · exact h
  · next f hf => exact h.refill hf _ [] true

theorem hold (h : ShowsFirst selectors tags n p) (event : Event) :
    ShowsFirst selectors tags n (p.hold event) := by
  unfold Progress.hold
  split
  · exact h.emit event
  · next f hf =>
    split
    · exact h.emit event
    · exact h.refill hf _ (f.parts ++ [event]) f.mixed

theorem settle (h : ShowsFirst selectors tags n p) {f : OpenField} (hf : p.current = some f)
    (preferCdata : Bool) (transform : Transform σ) :
    ShowsFirst selectors tags 0 { p.settle preferCdata transform f with current := none } := by
  have hname := h.current f hf
  unfold Progress.settle
  dsimp only
  split
  · refine ⟨h.seen, fun _ => rfl, nofun, nofun, h.changes, ?_⟩
    simpa [or_imp, forall_and, hname] using h.skipped
  · split
    · exact ⟨h.seen, fun _ => rfl, nofun, nofun, h.changes, h.skipped⟩
    · split
      · exact ⟨h.seen, fun _ => rfl, nofun, nofun, h.changes, h.skipped⟩
      · refine ⟨h.seen, fun _ => rfl, nofun, nofun, ?_, h.skipped⟩
        simpa [or_imp, forall_and, hname] using h.changes

theorem opening_outside (h : ShowsFirst selectors tags n p) (hc : p.current = none)
    (tag : List Char) :
    ∃ more m, (∀ events, fieldTags selectors n (.opening tag :: events) =
        more ++ fieldTags selectors m events) ∧
      ShowsFirst selectors (tags ++ more) m
        (Progress.enter selectors tag { p with depth := p.depth + 1 }) := by
  obtain rfl := h.outside hc
  unfold Progress.enter
  cases hs : selectors.find? (·.selects tag) with
  | none =>
    have hany : selectors.any (·.selects tag) = false := by
      simpa [List.find?_eq_none] using hs
    refine ⟨[], 0, fun events => by simp [fieldTags, hany], ?_⟩
    rw [List.append_nil]
    exact ⟨h.seen, fun _ => rfl, fun f hf => (by simp [hc] at hf), fun f hf => (by simp [hc] at hf),
      h.changes, h.skipped⟩
  | some s =>
    have hany : selectors.any (·.selects tag) = true :=
      List.any_eq_true.2 ⟨s, List.mem_of_find?_eq_some hs, by simpa using List.find?_some hs⟩
    have hname : firstName selectors (tags ++ [tag]) p.seen = some s.display := by
      rw [firstName, h.seen, List.getElem?_concat_length, Option.bind_some, hs, Option.map_some]
    refine ⟨[tag], 1, fun events => by simp [fieldTags, hany], ?_⟩
    refine ⟨?_, nofun, ?_, ?_, ?_, ?_⟩
    · rw [List.length_append, List.length_singleton, ← h.seen]
    · rintro _ ⟨⟩
      exact ⟨rfl, Nat.one_pos⟩
    · rintro _ ⟨⟩
      exact hname
    · exact fun change hchange => firstName_append (h.changes change hchange) [tag]
    · exact fun skip hskip => firstName_append (h.skipped skip hskip) [tag]

theorem opening_inside {f : OpenField} (h : ShowsFirst selectors tags n p) (hf : p.current = some f)
    (tag : List Char) :
    (∀ events, fieldTags selectors n (.opening tag :: events) =
        fieldTags selectors (n + 1) events) ∧
      ShowsFirst selectors tags (n + 1) { p with depth := p.depth + 1 } := by
  obtain ⟨m, rfl⟩ := Nat.exists_eq_succ_of_ne_zero (h.inside f hf).2.ne'
  refine ⟨fun _ => rfl, h.seen, fun hc => (by simp [hf] at hc), fun g hg => ?_, h.current,
    h.changes, h.skipped⟩
  have hdepth := (h.inside g hg).1
  exact ⟨by dsimp only; omega, Nat.succ_pos _⟩

/-- The end tag of a field leaves it, and another one inside leaves one element. -/
theorem closing (h : ShowsFirst selectors tags n p) (name : List Char) :
    (∀ events, fieldTags selectors n (.closing name :: events) =
        fieldTags selectors (n - 1) events) ∧
      ShowsFirst selectors tags (n - 1)
        (p.step selectors preferCdata transform (.closing name)) := by
  refine ⟨fun events => by cases n <;> rfl, ?_⟩
  rw [Progress.step]
  dsimp only
  cases hc : p.current with
  | none =>
    obtain rfl := h.outside hc
    exact ⟨h.seen, fun _ => rfl, fun f hf => (by simp [hc, Progress.emit] at hf),
      fun f hf => (by simp [hc, Progress.emit] at hf), h.changes, h.skipped⟩
  | some f =>
    obtain ⟨hdepth, hopen⟩ := h.inside f hc
    dsimp only
    split
    · next heq =>
      obtain rfl : n = 1 := by omega
      have hsettled := (h.settle hc preferCdata transform).emit (.closing name)
      exact ⟨hsettled.seen, hsettled.outside, fun g hg => (Option.some_ne_none g hg.symm).elim,
        hsettled.current, hsettled.changes, hsettled.skipped⟩
    · next hne =>
      refine ⟨h.seen, fun hnone => (Option.some_ne_none f (hc.symm.trans hnone)).elim,
        fun g hg => ?_, h.current, h.changes, h.skipped⟩
      obtain rfl : f = g := Option.some.inj (hc.symm.trans hg)
      dsimp only
      omega

/-- One event keeps the names right, with the start tag of the field that it opens, if it does. -/
theorem step (h : ShowsFirst selectors tags n p) (event : Event) :
    ∃ more m, (∀ events, fieldTags selectors n (event :: events) =
        more ++ fieldTags selectors m events) ∧
      ShowsFirst selectors (tags ++ more) m (p.step selectors preferCdata transform event) := by
  -- An event that is no tag leaves the number of open elements.
  have hother : ∀ q : Progress σ, ShowsFirst selectors tags n q →
      (∀ events, fieldTags selectors n (event :: events) = fieldTags selectors n events) →
        ∃ more m, (∀ events, fieldTags selectors n (event :: events) =
          more ++ fieldTags selectors m events) ∧ ShowsFirst selectors (tags ++ more) m q :=
    fun q hq hsame => ⟨[], n, hsame, by rwa [List.append_nil]⟩
  cases event with
  | opening tag =>
    rw [Progress.step]
    dsimp only
    obtain hc | ⟨f, hc⟩ := Option.eq_none_or_eq_some p.current
    · obtain ⟨more, m, htags, hshows⟩ := h.opening_outside hc tag
      rw [if_neg (by simp [hc])]
      exact ⟨more, m, htags, hshows.emit _⟩
    · obtain ⟨htags, hshows⟩ := h.opening_inside hc tag
      rw [if_pos (by simp [hc])]
      exact ⟨[], n + 1, htags, by simpa using hshows.release.emit _⟩
  | closing name =>
    obtain ⟨htags, hshows⟩ := h.closing name
    exact ⟨[], n - 1, htags, by rwa [List.append_nil]⟩
  | text raw => exact hother _ (h.hold _) fun _ => by cases n <;> rfl
  | cdata raw => exact hother _ (h.hold _) fun _ => by cases n <;> rfl
  | _ => exact hother _ (h.release.emit _) fun _ => by cases n <;> rfl

/-- Every field of a run is shown under the name of the first selector that selects it. -/
theorem run (h : ShowsFirst selectors tags n p) (events : List Event) :
    ∃ m, ShowsFirst selectors (tags ++ fieldTags selectors n events) m
      (events.foldl (Progress.step selectors preferCdata transform) p) := by
  induction events generalizing tags n p with
  | nil =>
    refine ⟨n, ?_⟩
    rwa [show fieldTags selectors n [] = [] by cases n <;> rfl, List.append_nil]
  | cons event events ih =>
    obtain ⟨more, m, htags, hshows⟩ := h.step event
    rw [htags, ← List.append_assoc]
    exact ih hshows

theorem initial (memory : σ) : ShowsFirst selectors [] 0 (Progress.initial memory) :=
  ⟨rfl, fun _ => rfl, nofun, nofun, nofun, nofun⟩

end ShowsFirst

def ConvertedDocument.unnamed (d : ConvertedDocument) : ConvertedDocument :=
  { d with changes := d.changes.map fun change => { change with field := [] } }

/-- What a conversion leaves behind, without the names of the fields. -/
def Conversion.unnamed (c : Conversion σ) : Conversion σ :=
  { c with
    result := c.result.map ConvertedDocument.unnamed
    skipped := c.skipped.map Skipped.unnamed }

/-- What the last state of a run leaves behind. -/
def Progress.conclude (document : List Char) (last : Progress σ) : Conversion σ where
  result := match (readDocument document).fault with
    | some (position, fault) => .error (.malformed position fault)
    | none =>
      if last.depth ≠ 0 then .error .unclosedElement
      else if last.changes.isEmpty then .ok ⟨document, []⟩
      else .ok ⟨(cutByteOrderMark document).1 ++ Event.sourceAll last.written.toList,
        last.changes.toList⟩
  skipped := last.skipped.toList
  memory := last.memory

theorem convertFields_eq_conclude (selectors : List Selector) (preferCdata : Bool)
    (transform : Transform σ) (document : List Char) (memory : σ) :
    convertFields selectors preferCdata transform document memory =
      (lastProgress selectors preferCdata transform document memory).conclude document :=
  rfl

theorem Progress.unnamed_conclude (document : List Char) (last : Progress σ) :
    (last.conclude document).unnamed = last.unnamed.conclude document := by
  have hempty : last.unnamed.changes.isEmpty = last.changes.isEmpty := by
    simp [Progress.unnamed, Array.isEmpty]
  have hchanges : last.unnamed.changes.toList =
      last.changes.toList.map fun change => { change with field := [] } := Array.toList_map
  have hskipped : last.unnamed.skipped.toList = last.skipped.toList.map Skipped.unnamed :=
    Array.toList_map
  have hsame : last.unnamed.depth = last.depth ∧ last.unnamed.written = last.written := ⟨rfl, rfl⟩
  rw [conclude, conclude, Conversion.unnamed, hempty, hchanges, hskipped, hsame.1, hsame.2]
  refine congrArg (Conversion.mk · _ _) ?_
  dsimp only
  split
  · rfl
  · split
    · rfl
    · split <;> rfl

/-- Each change and each warning shows the first selector that selects the start tag of its field,
given the start tags of all fields. -/
def Conversion.NamesFirst (selectors : List Selector) (tags : List (List Char))
    (c : Conversion σ) : Prop :=
  (∀ d, c.result = .ok d →
    ∀ change ∈ d.changes, firstName selectors tags change.index = some change.field) ∧
  ∀ skip ∈ c.skipped, firstName selectors tags skip.index = some skip.field

theorem namesFirst_convertFields (selectors : List Selector) (preferCdata : Bool)
    (transform : Transform σ) (document : List Char) (memory : σ) :
    (convertFields selectors preferCdata transform document memory).NamesFirst selectors
      (fieldTags selectors 0 (readDocument document).events) := by
  obtain ⟨m, hshows⟩ := @ShowsFirst.run _ preferCdata _ transform _ _ _
    (ShowsFirst.initial memory) (readDocument document).events
  rw [List.nil_append] at hshows
  refine ⟨fun d hd change hchange => ?_, hshows.skipped⟩
  rw [(convertFields_eq_ok hd).2.2.1] at hchange
  exact hshows.changes change hchange

/-- Which selectors there are decides what a conversion does, with every document and transform: it
succeeds or fails alike, with the same content and the same memory of the transform, and with the
same changes and warnings. In which order they stand decides the names in these: each is that of the
first selector for the start tag of its field, and the fields are the same. -/
theorem convertFields_of_same_set (same : ∀ s, s ∈ selectors ↔ s ∈ others) (preferCdata : Bool)
    (transform : Transform σ) (document : List Char) (memory : σ) :
    let one := convertFields selectors preferCdata transform document memory
    let other := convertFields others preferCdata transform document memory
    let tags := fieldTags selectors 0 (readDocument document).events
    one.unnamed = other.unnamed ∧ tags = fieldTags others 0 (readDocument document).events ∧
      one.NamesFirst selectors tags ∧ other.NamesFirst others tags := by
  intro one other tags
  have htags : tags = fieldTags others 0 (readDocument document).events := fieldTags_congr same 0 _
  refine ⟨?_, htags, namesFirst_convertFields .., htags ▸ namesFirst_convertFields ..⟩
  have hlast : (lastProgress selectors preferCdata transform document memory).unnamed =
      (lastProgress others preferCdata transform document memory).unnamed :=
    Progress.unnamed_run same rfl _
  simp only [one, other, convertFields_eq_conclude, Progress.unnamed_conclude, hlast]

/-- Two selectors of one element, the second of which is also put before the first. -/
theorem convertFields_of_same_set_moved :
    let plain : Selector := ⟨"q".toList, none⟩
    let narrow : Selector := ⟨"q".toList, some ("a".toList, "b".toList)⟩
    let document := "<r><q a=\"b\">x</q></r>".toList
    let transform := Transform.ofPure fun _ => "y".toList
    let one := convertFields [plain, narrow] false transform document ()
    let other := convertFields [narrow, plain, narrow] false transform document ()
    let content := "<r><q a=\"b\">y</q></r>".toList
    let tags := fieldTags [plain, narrow] 0 (readDocument document).events
    one.result = .ok ⟨content, [⟨"q".toList, 0, "x".toList, "y".toList, false⟩]⟩ ∧
      other.result = .ok ⟨content, [⟨"q[a=b]".toList, 0, "x".toList, "y".toList, false⟩]⟩ ∧
      one.unnamed = other.unnamed ∧
      tags = fieldTags [narrow, plain, narrow] 0 (readDocument document).events ∧
      one.NamesFirst [plain, narrow] tags ∧ other.NamesFirst [narrow, plain, narrow] tags := by
  intro plain narrow document transform one other content tags
  exact ⟨by decide +kernel, by decide +kernel,
    convertFields_of_same_set (by simp [or_comm]) false transform document ()⟩

end ReportMigration.Markup
