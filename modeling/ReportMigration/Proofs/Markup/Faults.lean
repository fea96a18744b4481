import Mathlib
import ReportMigration.Proofs.Markup.Portions

/-!
# What makes a conversion fail

A conversion fails with the fault that the reading of the document ends with, or because an element
is open at the end of the document. What it does with the fields on the way there does not matter:
neither selectors nor a transform can make it fail or keep it from failing.
-/

namespace ReportMigration.Markup

/-- An element is open at the end of the events: behind its start tag, every end tag closes an
element that is opened there. -/
def OpenAtEnd (events : List Event) : Prop :=
  ∃ before tag after inner, events = before ++ .opening tag :: after ∧
    after.foldlM nest [] = .ok inner

variable {events : List Event} {names next : List (List Char)}

theorem nest_append {event : Event} (h : nest names event = .ok next) (outer : List (List Char)) :
    nest (names ++ outer) event = .ok (next ++ outer) := by
  cases event with
  | opening tag =>
    obtain rfl := Except.ok.inj h
    rfl
  | closing name =>
    cases names with
    | nil => cases h
    | cons expected names =>
      rw [nest] at h
      split at h
      · next same =>
        obtain rfl := Except.ok.inj h
        exact if_pos same
      · cases h
  | _ =>
    obtain rfl := Except.ok.inj h
    rfl

theorem foldlM_nest_split {others : List Event} :
    (events ++ others).foldlM nest names = .ok next ↔
      ∃ middle, events.foldlM nest names = .ok middle ∧ others.foldlM nest middle = .ok next := by
  rw [List.foldlM_append]
  cases events.foldlM nest names <;> simp [bind, Except.bind]

theorem foldlM_nest_append (h : events.foldlM nest names = .ok next) (outer : List (List Char)) :
    events.foldlM nest (names ++ outer) = .ok (next ++ outer) := by
  induction events generalizing names with
  | nil =>
    obtain rfl := Except.ok.inj h
    rfl
  | cons event events ih =>
    obtain ⟨middle, hfirst, hrest⟩ := foldlM_nest_cons.1 h
    exact foldlM_nest_cons.2 ⟨middle ++ outer, nest_append hfirst outer, ih hrest⟩

/-- An element that is open at the end has a start tag, behind which only the elements inside of it
are open. -/
theorem exists_start (h : events.foldlM nest [] = .ok names) {k : Nat} (hk : k < names.length) :
    ∃ before tag after, events = before ++ .opening tag :: after ∧
      names[k]? = some (tagName tag) ∧ after.foldlM nest [] = .ok (names.take k) := by
  induction events using List.reverseRecOn generalizing names k with
  | nil =>
    obtain rfl := Except.ok.inj h
    exact absurd hk (Nat.not_lt_zero k)
  | append_singleton events event ih =>
    obtain ⟨middle, hfront, hevent⟩ := foldlM_nest_split.1 h
    obtain ⟨last, hlast, hend⟩ := foldlM_nest_cons.1 hevent
    obtain rfl := Except.ok.inj hend
    -- A start tag found in front is the one looked for if the event closes nothing outside of it.
    have hfound : ∀ {j}, j < middle.length → middle[j]? = last[k]? →
        nest (middle.take j) event = .ok (last.take k) → ∃ before tag after,
          events ++ [event] = before ++ .opening tag :: after ∧
            last[k]? = some (tagName tag) ∧ after.foldlM nest [] = .ok (last.take k) := by
      intro j hj hname hinside
      obtain ⟨before, tag, after, rfl, htag, hafter⟩ := ih hfront hj
      exact ⟨before, tag, after ++ [event], by simp, hname ▸ htag,
        foldlM_nest_split.2 ⟨_, hafter, foldlM_nest_cons.2 ⟨_, hinside, rfl⟩⟩⟩
    cases event with
    | opening tag =>
      obtain rfl := Except.ok.inj hlast
      cases k with
      | zero => exact ⟨events, tag, [], rfl, rfl, rfl⟩
      | succ j => exact hfound (Nat.lt_of_succ_lt_succ hk) rfl rfl
    | closing name =>
      cases middle with
      | nil => cases hlast
      | cons expected outer =>
        rw [nest] at hlast
        split at hlast
        · next same =>
          obtain rfl := Except.ok.inj hlast
          exact hfound (Nat.succ_lt_succ hk) rfl (if_pos same)
        · cases hlast
    | _ =>
      obtain rfl := Except.ok.inj hlast
      exact hfound hk rfl rfl

theorem openAtEnd_iff (h : events.foldlM nest [] = .ok names) : OpenAtEnd events ↔ names ≠ [] := by
  constructor
  · rintro ⟨before, tag, after, inner, rfl, hafter⟩ rfl
    obtain ⟨middle, -, hbehind⟩ := foldlM_nest_split.1 h
    obtain ⟨_, hstart, hrest⟩ := foldlM_nest_cons.1 hbehind
    obtain rfl := Except.ok.inj hstart
    have hopen := foldlM_nest_append hafter (tagName tag :: middle)
    rw [List.nil_append, hrest] at hopen
    have hnone : inner ++ tagName tag :: middle = [] := (Except.ok.inj hopen).symm
    exact List.cons_ne_nil _ _ (List.append_eq_nil_iff.1 hnone).2
  · intro hne
    obtain ⟨before, tag, after, he, -, hafter⟩ := exists_start h (List.length_pos_iff.2 hne)
    exact ⟨before, tag, after, _, he, hafter⟩

/-- What is wrong with a document: the fault that its reading ends with, or else an element that is
open at its end. -/
inductive Faulty (document : List Char) : DocumentFault → Prop
  | malformed {position : Nat} {fault : MarkupFault}
    (h : (readDocument document).fault = some (position, fault)) :
    Faulty document (.malformed position fault)
  | unclosed (h : (readDocument document).fault = none)
    (ho : OpenAtEnd (readDocument document).events) : Faulty document .unclosedElement

variable {σ : Type} {selectors : List Selector} {preferCdata : Bool} {transform : Transform σ}
  {document : List Char} {memory : σ}

theorem exists_faulty_iff : (∃ fault, Faulty document fault) ↔
    (readDocument document).fault ≠ none ∨ OpenAtEnd (readDocument document).events := by
  constructor
  · rintro ⟨_, ⟨h⟩ | ⟨-, ho⟩⟩
    · exact .inl (by rw [h]; nofun)
    · exact .inr ho
  · cases h : (readDocument document).fault with
    | some found => exact fun _ => ⟨_, .malformed h⟩
    | none => exact fun ho => ⟨_, .unclosed h (ho.resolve_left (absurd rfl))⟩

/-- Behind a reading without a fault the count of open elements is zero unless one is open. -/
theorem depth_lastProgress (h : (readDocument document).fault = none) :
    (lastProgress selectors preferCdata transform document memory).depth = 0 ↔
      ¬ OpenAtEnd (readDocument document).events := by
  obtain ⟨pieces, -, -, hevents, names, hnest⟩ := exists_spelt h
  change pieces.map Piece.event = (readDocument document).events at hevents
  rw [hevents] at hnest
  have hdepth := (Progress.initial memory).depth_run selectors preferCdata transform hnest rfl
  rw [openAtEnd_iff hnest, not_not, lastProgress, hdepth, List.length_eq_zero_iff]

theorem result_of_malformed {position : Nat} {fault : MarkupFault}
    (h : (readDocument document).fault = some (position, fault)) :
    (convertFields selectors preferCdata transform document memory).result =
      .error (.malformed position fault) := by
  rw [readDocument] at h
  simp only [convertFields, h]

/-- Behind a reading without a fault nothing but open elements make a conversion fail. -/
theorem result_of_read (h : (readDocument document).fault = none) :
    (OpenAtEnd (readDocument document).events →
        (convertFields selectors preferCdata transform document memory).result =
          .error .unclosedElement) ∧
      (¬ OpenAtEnd (readDocument document).events →
        ∃ converted, (convertFields selectors preferCdata transform document memory).result =
          .ok converted) := by
  have hdepth := @depth_lastProgress _ selectors preferCdata transform _ memory h
  rw [lastProgress] at hdepth
  rw [readDocument] at h hdepth ⊢
  simp only [convertFields, h]
  refine ⟨fun hopen => if_pos (mt hdepth.1 (not_not.2 hopen)), fun hclosed => ?_⟩
  rw [if_neg (not_not.2 (hdepth.2 hclosed))]
  split
  · exact ⟨_, rfl⟩
  · exact ⟨_, rfl⟩

theorem result_eq_error_iff {fault : DocumentFault} :
    (convertFields selectors preferCdata transform document memory).result = .error fault ↔
      Faulty document fault := by
  constructor
  · intro he
    cases h : (readDocument document).fault with
    | some found =>
      obtain rfl := Except.error.inj ((result_of_malformed h).symm.trans he)
      exact .malformed h
    | none =>
      obtain ⟨hopen, hclosed⟩ := @result_of_read _ selectors preferCdata transform _ memory h
      by_cases ho : OpenAtEnd (readDocument document).events
      · obtain rfl := Except.error.inj ((hopen ho).symm.trans he)
        exact .unclosed h ho
      · obtain ⟨converted, hok⟩ := hclosed ho
        cases hok.symm.trans he
  · rintro (⟨h⟩ | ⟨h, ho⟩)
    · exact result_of_malformed h
    · exact (result_of_read h).1 ho

/-- The failure that a conversion of the document at a path ends with, if it fails. -/
def failureAt (path : String) : Except DocumentFault ConvertedDocument → Option Failure
  | .ok _ => none
  | .error fault => some (.document path fault.message)

theorem failureAt_eq_some_iff {path : String} {failure : Failure} :
    failureAt path (convertFields selectors preferCdata transform document memory).result =
        some failure ↔
      ∃ fault, Faulty document fault ∧ failure = .document path fault.message := by
  simp only [← @result_eq_error_iff _ selectors preferCdata transform _ memory]
  cases (convertFields selectors preferCdata transform document memory).result <;>
    simp [failureAt, eq_comm]

/-- Two conversions of one document fail alike, whatever they select, how they write it and what
they put in its place. They fail exactly if the reading of the document ends with a fault or an
element is open at its end, and with the failure that says so. -/
theorem failures_agree {τ : Type} (path : String) (document : List Char)
    (selectors others : List Selector) (preferCdata otherCdata : Bool) (transform : Transform σ)
    (other : Transform τ) (memory : σ) (otherMemory : τ) :
    let result := (convertFields selectors preferCdata transform document memory).result
    failureAt path result =
        failureAt path (convertFields others otherCdata other document otherMemory).result ∧
      (failureAt path result ≠ none ↔
        (readDocument document).fault ≠ none ∨ OpenAtEnd (readDocument document).events) ∧
      ∀ failure, failureAt path result = some failure ↔
        ∃ fault, Faulty document fault ∧ failure = .document path fault.message := by
  intro result
  refine ⟨Option.ext fun failure => ?_, ?_, fun failure => failureAt_eq_some_iff⟩
  · rw [failureAt_eq_some_iff, failureAt_eq_some_iff]
  · rw [← exists_faulty_iff, Option.ne_none_iff_exists']
    simp only [result, failureAt_eq_some_iff, @exists_comm Failure, exists_and_left,
      exists_eq, and_true]

end ReportMigration.Markup
