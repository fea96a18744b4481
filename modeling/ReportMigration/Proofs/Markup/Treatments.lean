import Mathlib
import ReportMigration.Proofs.Markup.AsWritten
import ReportMigration.Proofs.Markup.Portions

/-!
# The treatment of fields

The outermost fields of a document are numbered in their order and treated one after the other, each
in the one way that what is inside of it asks for. The transform is called for those with a text that
can be decoded, and what it changes is recorded.
-/

namespace ReportMigration.Markup

open Text Report

/-- An outermost selected element with the selector that selects it, its number in the document and
what is inside. -/
structure NumberedField where
  selector : Selector
  index : Nat
  inside : List Event

def fieldsFrom : Nat → List Portion → List NumberedField
  | _, [] => []
  | n, .plain _ :: rest => fieldsFrom n rest
  | n, .field s _ inside _ :: rest => ⟨s, n, inside.map Piece.event⟩ :: fieldsFrom (n + 1) rest

/-- What is done about a field. -/
inductive Treatment where
  | leftAlone
  | skipped (reason : DecodeFault)
  | empty
  | called (raw answer : List Char)
deriving DecidableEq, Repr

/-- A call of the transform for the field of a number. -/
structure FieldCall where
  index : Nat
  argument : List Char
  answer : List Char
deriving DecidableEq, Repr

namespace NumberedField

variable (f : NumberedField) (preferCdata : Bool)

/-- The parts from the first to the last one that is not blank. -/
def core : List Event :=
  (Body.ofParts f.inside).core

/-- How a field is treated, with the memory of the transform before and after it. -/
inductive Treats {σ : Type} (transform : Transform σ) (memory : σ) : Treatment → σ → Prop
  | mixed {event : Event} (h : event ∈ f.inside) (other : isContent event = false) :
    Treats transform memory .leftAlone memory
  | blank (h : ∀ event ∈ f.inside, isBlankText event = true) :
    Treats transform memory .leftAlone memory
  | skipped {front rest : List Event} {raw meant : List Char} {reason : DecodeFault}
    (content : ∀ event ∈ f.inside, isContent event = true)
    (parts : f.core = front ++ .text raw :: rest) (decoded : decodeParts front = .ok meant)
    (h : decode raw = .error reason) :
    Treats transform memory (.skipped reason) memory
  | empty {event : Event} {raw : List Char} (content : ∀ event ∈ f.inside, isContent event = true)
    (some : event ∈ f.inside) (solid : isBlankText event = false)
    (decoded : decodeParts f.core = .ok raw) (h : trim raw = []) :
    Treats transform memory .empty memory
  | called {raw : List Char} (content : ∀ event ∈ f.inside, isContent event = true)
    (decoded : decodeParts f.core = .ok raw) (h : trim raw ≠ []) :
    Treats transform memory (.called raw (transform (trim raw) memory).1)
      (transform (trim raw) memory).2

/-- The treatment of a field and the memory of the transform after it. -/
def outcome {σ : Type} (transform : Transform σ) (memory : σ) : Treatment × σ :=
  if f.inside.all isBlankText || f.inside.any (!isContent ·) then (.leftAlone, memory)
  else match decodeParts f.core with
    | .error reason => (.skipped reason, memory)
    | .ok raw =>
      if trim raw = [] then (.empty, memory)
      else (.called raw (transform (trim raw) memory).1, (transform (trim raw) memory).2)

def warning? : Treatment → Option Skipped
  | .skipped reason => some ⟨f.selector.display, f.index, reason⟩
  | _ => none

def call? : Treatment → Option FieldCall
  | .called raw answer => some ⟨f.index, trim raw, answer⟩
  | _ => none

/-- Whether the new text of a field is written as a CDATA section. -/
def asCdata (raw answer : List Char) : Bool :=
  (f.core.any isCdata || preferCdata) && !occursIn "]]>".toList (within raw answer)

def change? : Treatment → Option Change
  | .called raw answer =>
    if answer = trim raw then none
    else some ⟨f.selector.display, f.index, trim raw, answer, f.asCdata preferCdata raw answer⟩
  | _ => none

def written : Treatment → List Event
  | .called raw answer =>
    if answer = trim raw then f.inside
    else (Body.ofParts f.inside).lead ++
      writeText (f.asCdata preferCdata raw answer) (within raw answer) :: (Body.ofParts f.inside).trail
  | _ => f.inside

end NumberedField

/-- How fields are treated one after the other. -/
inductive TreatsEach {σ : Type} (transform : Transform σ) :
    σ → List NumberedField → List Treatment → σ → Prop
  | nil {memory : σ} : TreatsEach transform memory [] [] memory
  | cons {memory middle last : σ} {f : NumberedField} {fields : List NumberedField}
    {treatment : Treatment} {treatments : List Treatment}
    (first : f.Treats transform memory treatment middle)
    (rest : TreatsEach transform middle fields treatments last) :
    TreatsEach transform memory (f :: fields) (treatment :: treatments) last

/-- What is to be said of fields with their treatments, in their order. -/
def collect {α : Type} (say : NumberedField → Treatment → Option α) (fields : List NumberedField)
    (treatments : List Treatment) : List α :=
  (fields.zip treatments).filterMap fun (f, treatment) => say f treatment

theorem collect_cons {α : Type} (say : NumberedField → Treatment → Option α) (f : NumberedField)
    (fields : List NumberedField) (treatment : Treatment) (treatments : List Treatment) :
    collect say (f :: fields) (treatment :: treatments) =
      (say f treatment).toList ++ collect say fields treatments := by
  cases h : say f treatment <;> simp [collect, h]

/-- The events of a document with other events inside of its fields. -/
def splice : List Portion → List (List Event) → List Event
  | .plain piece :: portions, insides => piece.event :: splice portions insides
  | .field _ start _ stop :: portions, inside :: insides =>
    start.event :: (inside ++ stop.event :: splice portions insides)
  | _, _ => []

variable {selectors : List Selector} {preferCdata : Bool} {σ : Type} {transform : Transform σ}
  {memory : σ}

theorem decodeParts_eq_error {parts : List Event} {reason : DecodeFault} :
    decodeParts parts = .error reason ↔ ∃ front raw rest meant,
      parts = front ++ .text raw :: rest ∧ decodeParts front = .ok meant ∧
        decode raw = .error reason := by
  constructor
  · intro h
    induction parts with
    | nil => cases h
    | cons part parts ih =>
      rw [decodeParts_cons] at h
      cases hpart : decodePart part with
      | error fault =>
        obtain rfl : fault = reason := by
          rw [hpart] at h
          exact Except.error.inj h
        cases part with
        | text raw => exact ⟨[], raw, parts, [], rfl, rfl, hpart⟩
        | _ => cases hpart
      | ok meant =>
        rw [hpart] at h
        cases hrest : decodeParts parts with
        | ok others =>
          rw [hrest] at h
          cases h
        | error fault =>
          rw [hrest] at h
          obtain ⟨front, raw, rest, others, rfl, hfront, hraw⟩ := ih (Except.error.inj h ▸ hrest)
          refine ⟨part :: front, raw, rest, meant ++ others, rfl, ?_, hraw⟩
          rw [decodeParts_cons, hpart, hfront]
          rfl
  · rintro ⟨front, raw, rest, meant, rfl, hfront, hraw⟩
    rw [decodeParts_append, hfront, decodeParts_cons, decodePart, hraw]
    rfl

theorem core_of_blank {parts : List Event} (h : ∀ part ∈ parts, isBlankText part = true) :
    (Body.ofParts parts).core = [] := by
  have hrest : parts.dropWhile isBlankText = [] := List.dropWhile_eq_nil_iff.2 h
  simp [Body.ofParts, hrest]

namespace NumberedField

variable {f : NumberedField}

theorem decoded_blank (h : ∀ event ∈ f.inside, isBlankText event = true) :
    decodeParts f.core = .ok [] := by
  rw [core, core_of_blank h]
  rfl

theorem outcome_of_content (hc : ∀ event ∈ f.inside, isContent event = true) {event : Event}
    (he : event ∈ f.inside) (hsolid : isBlankText event = false) :
    (f.inside.all isBlankText || f.inside.any (!isContent ·)) = false := by
  rw [Bool.or_eq_false_iff, List.all_eq_false, List.any_eq_false]
  exact ⟨⟨event, he, by simp [hsolid]⟩, fun part hpart => by simp [hc part hpart]⟩

theorem exists_solid (h : decodeParts f.core ≠ .ok []) :
    ∃ event ∈ f.inside, isBlankText event = false := by
  by_contra hblank
  push Not at hblank
  exact h (decoded_blank fun event he => by simpa using hblank event he)

theorem Treats.outcome_eq {treatment : Treatment} {last : σ}
    (h : f.Treats transform memory treatment last) : f.outcome transform memory = (treatment, last) := by
  cases h with
  | mixed he hother =>
    have hleft : f.inside.any (!isContent ·) = true :=
      List.any_eq_true.2 ⟨_, he, by simp [hother]⟩
    rw [outcome, hleft, Bool.or_true, if_pos rfl]
  | blank hblank =>
    have hleft : f.inside.all isBlankText = true := List.all_eq_true.2 hblank
    rw [outcome, hleft, Bool.true_or, if_pos rfl]
  | skipped hc hparts hfront hraw =>
    have herror := decodeParts_eq_error.2 ⟨_, _, _, _, hparts, hfront, hraw⟩
    obtain ⟨event, he, hsolid⟩ := exists_solid (f := f) (by rw [herror]; nofun)
    rw [outcome, outcome_of_content hc he hsolid, herror]
    rfl
  | empty hc he hsolid hdecoded hempty =>
    rw [outcome, outcome_of_content hc he hsolid, hdecoded]
    exact if_pos hempty
  | called hc hdecoded hne =>
    obtain ⟨event, he, hsolid⟩ := exists_solid (f := f) (by
      rw [hdecoded]
      rintro heq
      rw [Except.ok.inj heq] at hne
      exact hne rfl)
    rw [outcome, outcome_of_content hc he hsolid, hdecoded]
    exact if_neg hne

theorem treats_outcome (f : NumberedField) (transform : Transform σ) (memory : σ) :
    f.Treats transform memory (f.outcome transform memory).1 (f.outcome transform memory).2 := by
  rw [outcome]
  split
  · next hleft =>
    rcases (Bool.or_eq_true _ _).mp hleft with hblank | hother
    · exact .blank (List.all_eq_true.1 hblank)
    · obtain ⟨event, he, hother⟩ := List.any_eq_true.1 hother
      exact .mixed he (by simpa using hother)
  · next hleft =>
    rw [Bool.not_eq_true, Bool.or_eq_false_iff, List.all_eq_false, List.any_eq_false] at hleft
    obtain ⟨⟨event, he, hsolid⟩, hcontent⟩ := hleft
    have hc : ∀ part ∈ f.inside, isContent part = true :=
      fun part hpart => by simpa using hcontent part hpart
    split
    · next reason herror =>
      obtain ⟨front, raw, rest, meant, hparts, hfront, hraw⟩ := decodeParts_eq_error.1 herror
      exact .skipped hc hparts hfront hraw
    · next raw hdecoded =>
      split
      · next hempty => exact .empty hc he (by simpa using hsolid) hdecoded hempty
      · next hne => exact .called hc hdecoded hne

theorem treats_iff {treatment : Treatment} {last : σ} :
    f.Treats transform memory treatment last ↔ f.outcome transform memory = (treatment, last) := by
  refine ⟨Treats.outcome_eq, fun h => ?_⟩
  have houtcome := treats_outcome f transform memory
  rwa [h] at houtcome

end NumberedField

theorem TreatsEach.unique {fields : List NumberedField} {treatments others : List Treatment}
    {last last' : σ} (h : TreatsEach transform memory fields treatments last)
    (h' : TreatsEach transform memory fields others last') : others = treatments ∧ last' = last := by
  induction h generalizing others with
  | nil =>
    cases h'
    exact ⟨rfl, rfl⟩
  | cons first _ ih =>
    cases h' with
    | cons first' rest' =>
      have hsame := (NumberedField.treats_iff.1 first').symm.trans (NumberedField.treats_iff.1 first)
      obtain ⟨rfl, rfl⟩ := Prod.mk.inj hsame
      obtain ⟨rfl, rfl⟩ := ih rest'
      exact ⟨rfl, rfl⟩

theorem exists_treatsEach (transform : Transform σ) (memory : σ) (fields : List NumberedField) :
    ∃ treatments last, TreatsEach transform memory fields treatments last := by
  induction fields generalizing memory with
  | nil => exact ⟨_, _, .nil⟩
  | cons f fields ih =>
    obtain ⟨treatments, last, h⟩ := ih (f.outcome transform memory).2
    exact ⟨_, _, .cons (NumberedField.treats_outcome f transform memory) h⟩

namespace Progress

variable {p : Progress σ}

def treated (p : Progress σ) (preferCdata : Bool) (f : NumberedField) (treatment : Treatment)
    (last : σ) : Progress σ :=
  { p with
    written := p.written ++ f.written preferCdata treatment
    changes := p.changes ++ (f.change? preferCdata treatment).toList
    skipped := p.skipped ++ (f.warning? treatment).toList
    memory := last }

theorem settle_eq (preferCdata : Bool) {f : NumberedField} {treatment : Treatment} {last : σ}
    {g : OpenField} (hcontent : ∀ event ∈ f.inside, isContent event = true)
    (hg : g.field = f.selector.display) (hindex : g.index = f.index)
    (hparts : g.parts = f.inside) (h : f.Treats transform p.memory treatment last) :
    p.settle preferCdata transform g = p.treated preferCdata f treatment last := by
  rw [settle]
  dsimp only
  rw [hg, hindex, hparts]
  cases h with
  | mixed he hother =>
    rw [hcontent _ he] at hother
    cases hother
  | blank hblank =>
    have hdecoded : decodeParts (Body.ofParts f.inside).core = .ok [] :=
      NumberedField.decoded_blank hblank
    rw [hdecoded]
    simp [treated, emitAll, NumberedField.written, NumberedField.change?, NumberedField.warning?,
      trim, trimStart, trimEnd]
  | skipped _ hcore hfront hraw =>
    have herror : decodeParts (Body.ofParts f.inside).core = _ :=
      decodeParts_eq_error.2 ⟨_, _, _, _, hcore, hfront, hraw⟩
    rw [herror]
    simp [treated, emitAll, NumberedField.written, NumberedField.change?, NumberedField.warning?]
  | empty _ _ _ hdecoded hempty =>
    rw [NumberedField.core] at hdecoded
    rw [hdecoded]
    simp [treated, emitAll, NumberedField.written, NumberedField.change?, NumberedField.warning?,
      hempty]
  | called _ hdecoded hne =>
    rw [NumberedField.core] at hdecoded
    rw [hdecoded]
    dsimp only
    rw [if_neg (by simpa using hne)]
    split
    · next hsame =>
      simp [treated, emitAll, NumberedField.written, NumberedField.change?, NumberedField.warning?,
        hsame]
    · next hother =>
      simp [treated, emitAll, NumberedField.written, NumberedField.change?, NumberedField.warning?,
        hother, NumberedField.asCdata, NumberedField.core]

theorem Calm.run_inside {events : List Event} {names last : List (List Char)} {g : OpenField}
    (h : p.Calm) (hg : p.current = some g) (hd : p.depth = g.depth + names.length)
    (hn : events.foldlM nest names = .ok last) :
    events.foldl (step selectors preferCdata transform) p =
      { p.emitAll events with depth := g.depth + last.length } := by
  induction events generalizing p names with
  | nil =>
    obtain rfl := Except.ok.inj hn
    rw [← hd]
    simp [emitAll]
  | cons event events ih =>
    obtain ⟨next, hfirst, hrest⟩ := foldlM_nest_cons.1 hn
    have hstep : p.step selectors preferCdata transform event =
        { p.emit event with depth := g.depth + next.length } := by
      cases event with
      | opening tag =>
        obtain rfl := Except.ok.inj hfirst
        rw [h.step_opening (by simp [hg]), hd]
        rfl
      | closing name =>
        cases names with
        | nil => cases hfirst
        | cons expected outer =>
          rw [nest] at hfirst
          split at hfirst
          · obtain rfl := Except.ok.inj hfirst
            have hinner : g.depth ≠ p.depth := by
              rw [hd, List.length_cons]
              omega
            rw [h.step_closing, hg, Option.filter_some_pos (by simpa using hinner), hd]
            exact congrArg (fun current => { p.emit (.closing name) with
              depth := g.depth + outer.length, current := current }) hg.symm
          · cases hfirst
      | _ =>
        obtain rfl := Except.ok.inj hfirst
        rw [← hd, h.step_other]
        · rfl
        all_goals exact fun _ => Event.noConfusion
    rw [List.foldl_cons, hstep, ih (p := { p.emit event with depth := _ }) h hg rfl hrest]
    simp [emitAll, emit]

theorem Calm.run_to_end {events : List Event} {g : OpenField} (h : p.Calm)
    (hg : p.current = some g) (hd : p.depth = g.depth) (hn : events.foldlM nest [] = .ok [])
    (name : List Char) :
    (events ++ [Event.closing name]).foldl (step selectors preferCdata transform) p =
      { p.emitAll (events ++ [.closing name]) with depth := p.depth - 1, current := none } := by
  have hinside : Calm { p.emitAll events with depth := g.depth } := h
  have hcurrent : ({ p.emitAll events with depth := g.depth } : Progress σ).current = some g := hg
  have hdepth : p.depth = g.depth + ([] : List (List Char)).length := hd
  rw [List.foldl_append, h.run_inside hg hdepth hn, List.foldl_cons, List.foldl_nil,
    List.length_nil, Nat.add_zero, hinside.step_closing, hcurrent]
  simp [emit, emitAll, hd, Option.filter, ← Array.toList_inj]

/-- A field with something else than text and CDATA inside is only written. -/
theorem run_mixed {s : Selector} {tag name : List Char} {inside : List Event}
    (hc : p.current = none) (hs : selectors.find? (·.selects tag) = some s)
    (hinside : inside.foldlM nest [] = .ok []) {event : Event} (he : event ∈ inside)
    (hother : isContent event = false) :
    (.opening tag :: (inside ++ [.closing name])).foldl (step selectors preferCdata transform) p =
      { p.emitAll (.opening tag :: (inside ++ [.closing name])) with seen := p.seen + 1 } := by
  -- Everything in front of the first event that is not content is held back until then.
  have hfound : (inside.find? (!isContent ·)).isSome = true :=
    List.find?_isSome.2 ⟨event, he, by simp [hother]⟩
  obtain ⟨first, hfirst⟩ := Option.isSome_iff_exists.1 hfound
  obtain ⟨hcontent, parts, rest, rfl, hparts⟩ := List.find?_eq_some_iff_append.1 hfirst
  rw [Bool.not_eq_true'] at hcontent
  have hbody : ∀ part ∈ parts, isContent part = true := fun part hp => by simpa using hparts part hp
  rw [nest_content hbody] at hinside
  have hopen : ∀ closed, first ≠ .closing closed := by
    rintro closed rfl
    cases hinside
  have hrelease : (p.opened s tag parts).release.current =
      some ⟨s.display, p.seen, p.depth + 1, [], true⟩ := rfl
  rw [List.foldl_cons, step_opening hc hs, List.append_assoc, List.foldl_append, opened_run hbody,
    List.nil_append, List.cons_append, List.foldl_cons, step_release hcontent hopen rfl,
    ← List.foldl_cons, ← List.cons_append, (calm_release _).run_to_end hrelease rfl hinside]
  simp [release, opened, emit, emitAll, hc, ← Array.toList_inj]

/-- A field with nothing but text and CDATA inside is treated at its end. -/
theorem run_content {s : Selector} {tag name : List Char} {inside : List Event}
    (hc : p.current = none) (hs : selectors.find? (·.selects tag) = some s)
    (hinside : ∀ event ∈ inside, isContent event = true) {treatment : Treatment} {last : σ}
    (h : NumberedField.Treats ⟨s, p.seen, inside⟩ transform p.memory treatment last) :
    (.opening tag :: (inside ++ [.closing name])).foldl (step selectors preferCdata transform) p =
      { ((p.emit (.opening tag)).treated preferCdata ⟨s, p.seen, inside⟩ treatment last).emit
          (.closing name) with seen := p.seen + 1 } := by
  have hsettle := settle_eq (p := p.opened s tag inside) preferCdata
    (g := ⟨s.display, p.seen, p.depth + 1, inside, false⟩) hinside rfl rfl rfl h
  rw [List.foldl_cons, step_opening hc hs, List.foldl_append, opened_run hinside,
    List.nil_append, List.foldl_cons, List.foldl_nil, step_closing rfl rfl, hsettle]
  simp [treated, opened, emit, hc]

theorem run_field_treated {s : Selector} {start stop : Piece} {inside : List Piece}
    (hc : p.current = none) (hv : (Portion.field s start inside stop).Valid selectors)
    {treatment : Treatment} {last : σ}
    (h : NumberedField.Treats ⟨s, p.seen, inside.map Piece.event⟩ transform p.memory treatment
      last) :
    ((Portion.field s start inside stop).pieces.map Piece.event).foldl
        (step selectors preferCdata transform) p =
      { ((p.emit start.event).treated preferCdata ⟨s, p.seen, inside.map Piece.event⟩ treatment
          last).emit stop.event with seen := p.seen + 1 } := by
  obtain ⟨⟩ | ⟨hstart, hs, hinside, hstop⟩ := hv
  rw [Portion.pieces, List.map_cons, List.map_append, List.map_singleton, hstart, hstop]
  by_cases hcontent : ∀ event ∈ inside.map Piece.event, isContent event = true
  · exact run_content hc hs hcontent h
  · push Not at hcontent
    obtain ⟨event, he, hother⟩ := hcontent
    have hmixed : isContent event = false := by simpa using hother
    have hleft : NumberedField.Treats ⟨s, p.seen, inside.map Piece.event⟩ transform p.memory
        .leftAlone p.memory := .mixed he hmixed
    have hsame := (NumberedField.treats_iff.1 h).symm.trans (NumberedField.treats_iff.1 hleft)
    obtain ⟨rfl, rfl⟩ := Prod.mk.inj hsame
    rw [run_mixed hc hs hinside he hmixed]
    simp [treated, emit, emitAll, NumberedField.written, NumberedField.change?,
      NumberedField.warning?, ← Array.toList_inj]

theorem step_plain (preferCdata : Bool) (transform : Transform σ) {event : Event}
    (hc : p.current = none)
    (hs : ∀ tag, event = .opening tag → selectors.find? (·.selects tag) = none) :
    ∃ depth, p.step selectors preferCdata transform event = { p.emit event with depth := depth } := by
  have hcalm : p.Calm := fun g hg => by
    rw [hc] at hg
    cases hg
  cases event with
  | opening tag => exact ⟨_, hcalm.step_opening fun _ => hs tag rfl⟩
  | closing name =>
    rw [hcalm.step_closing, hc]
    exact ⟨_, congrArg (fun current => { p.emit (.closing name) with
      depth := p.depth - 1, current := current }) hc.symm⟩
  | _ =>
    rw [hcalm.step_other]
    · exact ⟨p.depth, rfl⟩
    all_goals exact fun _ => Event.noConfusion

theorem run_portions (preferCdata : Bool) {portions : List Portion} (hc : p.current = none)
    (hv : ∀ portion ∈ portions, portion.Valid selectors) {treatments : List Treatment} {last : σ}
    (h : TreatsEach transform p.memory (fieldsFrom p.seen portions) treatments last) :
    let fields := fieldsFrom p.seen portions
    let q := ((portions.flatMap Portion.pieces).map Piece.event).foldl
      (step selectors preferCdata transform) p
    q.written.toList = p.written.toList ++
        splice portions (List.zipWith (·.written preferCdata) fields treatments) ∧
      q.changes.toList = p.changes.toList ++ collect (·.change? preferCdata) fields treatments ∧
      q.skipped.toList = p.skipped.toList ++ collect NumberedField.warning? fields treatments ∧
      q.memory = last := by
  induction portions generalizing p treatments with
  | nil =>
    cases h
    simp [collect, fieldsFrom, splice]
  | cons portion portions ih =>
    obtain ⟨hfirst, hrest⟩ := List.forall_mem_cons.1 hv
    rw [List.flatMap_cons, List.map_append, List.foldl_append]
    cases portion with
    | plain piece =>
      obtain ⟨hplain⟩ := hfirst
      obtain ⟨depth, hstep⟩ := step_plain preferCdata transform hc hplain
      rw [Portion.pieces, List.map_singleton, List.foldl_cons, List.foldl_nil, hstep]
      obtain ⟨hw, hch, hsk, hm⟩ := ih (p := { p.emit piece.event with depth := depth }) hc hrest h
      refine ⟨hw.trans ?_, hch, hsk, hm⟩
      simp [emit, splice, fieldsFrom]
    | field s start inside stop =>
      obtain _ | @⟨_, middle, _, _, _, treatment, treatments, first, rest⟩ := h
      let next : Progress σ :=
        { ((p.emit start.event).treated preferCdata ⟨s, p.seen, inside.map Piece.event⟩ treatment
            middle).emit stop.event with seen := p.seen + 1 }
      obtain ⟨hw, hch, hsk, hm⟩ := ih (p := next) hc hrest rest
      rw [run_field_treated hc hfirst first]
      refine ⟨hw.trans ?_, hch.trans ?_, hsk.trans ?_, hm⟩
      · simp [next, treated, emit, splice, fieldsFrom]
      · simp [next, treated, emit, fieldsFrom, collect_cons]
      · simp [next, treated, emit, fieldsFrom, collect_cons]

end Progress
end ReportMigration.Markup
