import Mathlib
import ReportMigration.Proofs.Markup.Stretches

/-!
# Two runs side by side

A run over a document and a run over what was written of it have the same elements open at the end of
each field. A field that the first run left alone or changed is left alone by the second, if the
transform leaves alone what it put there.
-/

namespace ReportMigration.Markup

open Text Report

theorem decodeParts_core {parts : List Event} {raw : List Char}
    (h : decodeParts (Body.ofParts parts).core = .ok raw) :
    ∃ lead trail, lead.all isBlank = true ∧ trail.all isBlank = true ∧
      decodeParts parts = .ok (lead ++ (raw ++ trail)) := by
  obtain ⟨hl, hlead⟩ := blankTexts (Body.all_lead parts)
  obtain ⟨ht, htrail⟩ := blankTexts (Body.all_trail parts)
  refine ⟨_, _, all_isBlank hl, all_isBlank ht, ?_⟩
  conv => lhs; rw [Body.ofParts_eq parts]
  rw [decodeParts_append, decodeParts_append, hlead, h, htrail]
  rfl

theorem Settled.steady {t : List Char → List Char} {change : Change} {parts written : List Event}
    (h : Settled change parts written) (htrim : trim change.after = change.after)
    (hsame : t change.after = change.after) : Steady t (reread change written) := by
  intro raw hraw _
  obtain ⟨lead, trail, hl, ht, -, -, hnew⟩ := h.replaced.meaning
  obtain ⟨lead', trail', hl', ht', hall⟩ := decodeParts_core hraw
  have hmeant : lead' ++ (raw ++ trail') = lead ++ (change.after ++ trail) :=
    Except.ok.inj (hall.symm.trans hnew)
  have hafter : trim raw = change.after := by
    rw [← trim_around hl' ht' raw, hmeant, trim_around hl ht, htrim]
  rw [hafter, hsame]

namespace Progress

variable {selectors : List Selector} {preferCdata : Bool} {σ : Type} {transform : Transform σ}
  {p : Progress σ} {f : OpenField}

theorem settle_of_steady (h : Steady (fun text => (transform text p.memory).1) f.parts) :
    (p.settle preferCdata transform f).changes = p.changes := by
  rcases p.settle_spec preferCdata transform f with ⟨-, hc, -⟩ | ⟨change, written, -, hs, hafter, -⟩
  · exact Array.toList_inj.1 hc
  · obtain ⟨raw, hraw, hbefore, hne, hchanged, -⟩ := hs
    have hsame := h raw hraw (hbefore ▸ hne)
    rw [hbefore] at hsame
    exact absurd (hafter.trans hsame) hchanged

theorem settle_of_parts (h : f.parts = []) : p.settle preferCdata transform f = p := by
  unfold settle
  rw [h]
  simp [Body.ofParts, decodeParts, trim, trimStart, trimEnd, emitAll]

theorem step_inner (hp : p.current.isSome = true) (tag : List Char) :
    p.step selectors preferCdata transform (.opening tag) =
      { p.release.emit (.opening tag) with depth := p.depth + 1 } := by
  rw [step]
  dsimp only
  rw [if_pos hp, release_depth]
  rfl

theorem step_closing (hf : p.current = some f) (hd : f.depth = p.depth)
    (name : List Char) :
    p.step selectors preferCdata transform (.closing name) =
      { (p.settle preferCdata transform f).emit (.closing name) with
        depth := p.depth - 1
        current := none } := by
  rw [step, hf]
  dsimp only
  rw [if_pos hd]
  simp only [emit, settle_depth]

/-- Nothing of a field is held back. -/
def Calm (p : Progress σ) : Prop :=
  ∀ f, p.current = some f → f.mixed = true ∧ f.parts = []

theorem Calm.release_eq (h : p.Calm) : p.release = p := by
  unfold release
  split
  · rfl
  · next f hf =>
    obtain ⟨hmixed, hparts⟩ := h f hf
    obtain ⟨depth, seen, current, written, changes, skipped, memory⟩ := p
    obtain ⟨field, index, depth', parts, mixed⟩ := f
    dsimp only at hmixed hparts hf
    subst hmixed hparts hf
    simp [emitAll]

theorem Calm.hold_eq (h : p.Calm) (event : Event) : p.hold event = p.emit event := by
  unfold hold
  split
  · rfl
  · next f hf => rw [if_pos (h f hf).1]

theorem calm_release (p : Progress σ) : p.release.Calm := by
  intro f hf
  unfold release at hf
  split at hf
  · next hnone =>
    rw [hnone] at hf
    cases hf
  · cases hf
    exact ⟨rfl, rfl⟩

theorem Calm.step_opening (h : p.Calm) {tag : List Char}
    (hs : p.current = none → selectors.find? (·.selects tag) = none) :
    p.step selectors preferCdata transform (.opening tag) =
      { p.emit (.opening tag) with depth := p.depth + 1 } := by
  cases hc : p.current with
  | none => simp [step, enter, hc, hs hc, emit]
  | some f => rw [step_inner (by simp [hc]), h.release_eq]

theorem Calm.step_closing (h : p.Calm) (name : List Char) :
    p.step selectors preferCdata transform (.closing name) =
      { p.emit (.closing name) with
        depth := p.depth - 1
        current := p.current.filter fun f => f.depth ≠ p.depth } := by
  rw [step]
  cases hc : p.current with
  | none => simp [emit, hc]
  | some f =>
    dsimp only
    split
    · next hd => simp [emit, settle_of_parts (h f hc).2, Option.filter, hd]
    · next hd => simp [emit, hc, Option.filter, hd]

theorem Calm.step_other (h : p.Calm) {event : Event} (ho : ∀ tag, event ≠ .opening tag)
    (hc : ∀ name, event ≠ .closing name) :
    p.step selectors preferCdata transform event = p.emit event := by
  cases event with
  | opening tag => exact absurd rfl (ho tag)
  | closing name => exact absurd rfl (hc name)
  | text raw => exact h.hold_eq _
  | cdata raw => exact h.hold_eq _
  | _ => exact congrArg (emit · _) h.release_eq

variable {s : Selector} {tag : List Char} {parts : List Event}

/-- Inside an element that a selector selects, after the given parts of it. -/
def opened (p : Progress σ) (s : Selector) (tag : List Char) (parts : List Event) : Progress σ :=
  { p.emit (.opening tag) with
    depth := p.depth + 1
    current := some ⟨s.display, p.seen, p.depth + 1, parts, false⟩
    seen := p.seen + 1 }

theorem step_opening (hc : p.current = none) (hs : selectors.find? (·.selects tag) = some s) :
    p.step selectors preferCdata transform (.opening tag) = p.opened s tag [] := by
  simp [step, enter, hc, hs, opened, emit]

theorem opened_content {part : Event} (h : isContent part = true) :
    (p.opened s tag parts).step selectors preferCdata transform part =
      p.opened s tag (parts ++ [part]) := by
  cases part <;> first | rfl | cases h

theorem opened_run {more : List Event} (h : ∀ part ∈ more, isContent part = true) :
    more.foldl (step selectors preferCdata transform) (p.opened s tag parts) =
      p.opened s tag (parts ++ more) := by
  induction more generalizing parts with
  | nil => rw [List.append_nil, List.foldl_nil]
  | cons part more ih =>
    rw [List.foldl_cons, opened_content (h part List.mem_cons_self),
      ih fun other ho => h other (List.mem_cons_of_mem _ ho), List.append_assoc,
      List.singleton_append]

theorem isSome_release (hp : p.current.isSome = true) : p.release.current.isSome = true := by
  unfold release
  split
  · exact hp
  · rfl

/-- Another event than text, CDATA and an end tag first releases the field that is read. -/
theorem step_release {event : Event} (hc : isContent event = false)
    (hn : ∀ name, event ≠ .closing name) (hp : p.current.isSome = true) :
    p.step selectors preferCdata transform event =
      p.release.step selectors preferCdata transform event := by
  have hrelease := (calm_release p).release_eq
  cases event with
  | opening tag => rw [step_inner hp, step_inner (isSome_release hp), hrelease, depth_release]
  | closing name => exact absurd rfl (hn name)
  | text raw => cases hc
  | cdata raw => cases hc
  | _ => exact congrArg (emit · _) hrelease.symm

end Progress

/-- The same elements are open in two runs, no field is held back in either, and the second has
changed nothing. -/
structure Twin (p q : Progress Unit) : Prop where
  calm : p.Calm
  calm' : q.Calm
  depth : q.depth = p.depth
  current : q.current.map OpenField.depth = p.current.map OpenField.depth
  unchanged : q.changes = #[]

variable {selectors : List Selector} {preferCdata : Bool} {t : List Char → List Char}
  {p q : Progress Unit}

theorem Twin.refl (h : p.Calm) : Twin p { p with changes := #[] } :=
  ⟨h, h, rfl, rfl, rfl⟩

theorem Twin.current_eq_none (h : Twin p q) : q.current = none ↔ p.current = none := by
  rw [← Option.map_eq_none_iff (f := OpenField.depth), h.current, Option.map_eq_none_iff]

theorem Twin.emit (h : Twin p q) (event event' : Event) : Twin (p.emit event) (q.emit event') :=
  ⟨h.calm, h.calm', h.depth, h.current, h.unchanged⟩

theorem Twin.withDepth (h : Twin p q) (depth : Nat) :
    Twin { p with depth := depth } { q with depth := depth } :=
  ⟨h.calm, h.calm', rfl, h.current, h.unchanged⟩

theorem calm_filter (h : p.Calm) (test : OpenField → Bool) :
    Progress.Calm { p with current := p.current.filter test } :=
  fun f hf => h f (Option.filter_eq_some_iff.1 hf).1

theorem Twin.close (h : Twin p q) :
    Twin { p with current := p.current.filter fun f => f.depth ≠ p.depth }
      { q with current := q.current.filter fun f => f.depth ≠ q.depth } := by
  refine ⟨calm_filter h.calm _, calm_filter h.calm' _, h.depth, ?_, h.unchanged⟩
  have hfilter : ∀ current : Option OpenField,
      (current.filter fun f => f.depth ≠ p.depth).map OpenField.depth =
        (current.map OpenField.depth).filter (fun depth => depth ≠ p.depth) := by
    intro current
    cases current with
    | none => rfl
    | some f => by_cases hd : f.depth = p.depth <;> simp [Option.filter, hd]
  rw [h.depth]
  exact (hfilter _).trans ((congrArg _ h.current).trans (hfilter _).symm)

theorem Twin.step (h : Twin p q) {event : Event}
    (hs : ∀ tag, event = .opening tag → p.current = none → selectors.find? (·.selects tag) = none) :
    (p.step selectors preferCdata (Transform.ofPure t) event).written = p.written.push event ∧
      Twin (p.step selectors preferCdata (Transform.ofPure t) event)
        (q.step selectors preferCdata (Transform.ofPure t) event) := by
  cases event with
  | opening tag =>
    have hq : q.current = none → selectors.find? (·.selects tag) = none :=
      fun hq => hs tag rfl (h.current_eq_none.1 hq)
    rw [h.calm.step_opening (hs tag rfl), h.calm'.step_opening hq, h.depth]
    exact ⟨rfl, (h.emit _ _).withDepth _⟩
  | closing name =>
    rw [h.calm.step_closing, h.calm'.step_closing, h.depth]
    have hclose := h.close
    rw [h.depth] at hclose
    exact ⟨rfl, (hclose.emit (.closing name) (.closing name)).withDepth (p.depth - 1)⟩
  | _ =>
    rw [h.calm.step_other, h.calm'.step_other]
    · exact ⟨rfl, h.emit _ _⟩
    all_goals exact fun _ => nofun

/-- Two runs pass the end tags of a field side by side if the second finds a steady one. -/
theorem Twin.closing (h : Twin p q) {s : Selector} {tag : List Char} (parts : List Event)
    {parts' : List Event} (hsteady : Steady t parts') (name : List Char) :
    Twin
      ((p.opened s tag parts).step selectors preferCdata (Transform.ofPure t) (.closing name))
      ((q.opened s tag parts').step selectors preferCdata (Transform.ofPure t) (.closing name)) := by
  rw [Progress.step_closing rfl rfl, Progress.step_closing rfl rfl]
  refine ⟨nofun, nofun, ?_, rfl, ?_⟩
  · exact congrArg (· + 1 - 1) h.depth
  · exact (Progress.settle_of_steady hsteady).trans h.unchanged

theorem Twin.release (h : Twin p q) (s : Selector) (tag : List Char) (parts : List Event) :
    Twin (p.opened s tag parts).release (q.opened s tag parts).release :=
  ⟨Progress.calm_release _, Progress.calm_release _, congrArg (· + 1) h.depth,
    congrArg (fun depth => some (depth + 1)) h.depth, h.unchanged⟩

end ReportMigration.Markup
