import Mathlib
import ReportMigration.Proofs.Markup.Faults
import ReportMigration.Proofs.Markup.Rereading

/-!
# The open field

Between two events of a run a field is open exactly while a selected element is, and it belongs to
the outermost of those. The run counts the elements that the reader has open, and what is written,
followed by what is held back, is what was read with nothing but changed fields replaced. So nothing
is held back where no element is open.
-/

namespace ReportMigration.Markup

open Report

variable {selectors : List Selector} {events : List Event} {event : Event}
  {names next : List (List Char)} {σ : Type} {p q : Progress σ} {f g : OpenField}

/-- A selected element whose start tag is read and whose end tag is not: what is read in front of it
and inside of it, and the elements open around it and inside of it. -/
structure Unclosed (selectors : List Selector) (events : List Event) where
  before : List Event
  tag : List Char
  inside : List Event
  selector : Selector
  outer : List (List Char)
  inner : List (List Char)
  events_eq : events = before ++ .opening tag :: inside
  selected : selectors.find? (·.selects tag) = some selector
  around : before.foldlM nest [] = .ok outer
  nested : inside.foldlM nest [] = .ok inner

theorem foldlM_nest_snoc (h : events.foldlM nest [] = .ok names)
    (hn : nest names event = .ok next) : (events ++ [event]).foldlM nest [] = .ok next :=
  foldlM_nest_split.2 ⟨names, h, foldlM_nest_cons.2 ⟨next, hn, rfl⟩⟩

theorem ne_nil_of_nest_closing {name : List Char} (h : nest names (.closing name) = .ok next) :
    names ≠ [] := by
  rintro rfl
  cases h

namespace Unclosed

/-- The number of elements that are open as soon as the element is. -/
def depth (e : Unclosed selectors events) : Nat :=
  e.outer.length + 1

theorem names_eq (e : Unclosed selectors events) (h : events.foldlM nest [] = .ok names) :
    names = e.inner ++ tagName e.tag :: e.outer := by
  have hinside : (Event.opening e.tag :: e.inside).foldlM nest e.outer =
      .ok (e.inner ++ tagName e.tag :: e.outer) :=
    foldlM_nest_cons.2 ⟨tagName e.tag :: e.outer, rfl, foldlM_nest_append e.nested _⟩
  have hopen := foldlM_nest_split.2 ⟨e.outer, e.around, hinside⟩
  rw [← e.events_eq, h] at hopen
  exact Except.ok.inj hopen

theorem length_eq (e : Unclosed selectors events) (h : events.foldlM nest [] = .ok names) :
    names.length = e.inner.length + e.depth := by
  rw [e.names_eq h, List.length_append, List.length_cons, depth]

/-- An element is open behind its start tag. -/
def start (h : events.foldlM nest [] = .ok names) {tag : List Char} {s : Selector}
    (hs : selectors.find? (·.selects tag) = some s) :
    Unclosed selectors (events ++ [.opening tag]) :=
  ⟨events, tag, [], s, names, [], rfl, hs, h, rfl⟩

/-- An element stays open behind an event inside of it. -/
def extend (e : Unclosed selectors events) {inner : List (List Char)}
    (h : nest e.inner event = .ok inner) : Unclosed selectors (events ++ [event]) where
  before := e.before
  tag := e.tag
  inside := e.inside ++ [event]
  selector := e.selector
  outer := e.outer
  inner := inner
  events_eq := by
    conv => lhs; rw [e.events_eq]
    rw [List.append_assoc, List.cons_append]
  selected := e.selected
  around := e.around
  nested := foldlM_nest_snoc e.nested h

theorem any_inside_extend (e : Unclosed selectors events) {inner : List (List Char)}
    (h : nest e.inner event = .ok inner) (test : Event → Bool) :
    (e.extend h).inside.any test = (e.inside.any test || test event) := by
  rw [extend, List.any_append, List.any_cons, List.any_nil, Bool.or_false]

theorem opened_or_open (e : Unclosed selectors (events ++ [event])) :
    (event = .opening e.tag ∧ events.foldlM nest [] = .ok e.outer) ∨
      ∃ earlier : Unclosed selectors events, earlier.depth = e.depth ∧
        nest earlier.inner event = .ok e.inner := by
  obtain ⟨before, tag, inside, s, outer, inner, heq, hs, houter, hinner⟩ := e
  rcases List.eq_nil_or_concat inside with rfl | ⟨inside, last, rfl⟩
  · obtain ⟨rfl, hlast⟩ := List.append_inj' heq rfl
    exact .inl ⟨List.singleton_inj.1 hlast, houter⟩
  · rw [List.concat_eq_append, ← List.cons_append, ← List.append_assoc] at heq
    obtain ⟨rfl, hlast⟩ := List.append_inj' heq rfl
    obtain rfl := List.singleton_inj.1 hlast
    rw [List.concat_eq_append] at hinner
    obtain ⟨middle, hmiddle, hend⟩ := foldlM_nest_split.1 hinner
    obtain ⟨last, hlast, hnil⟩ := foldlM_nest_cons.1 hend
    obtain rfl := Except.ok.inj hnil
    exact .inr ⟨⟨before, tag, inside, s, outer, middle, rfl, hs, houter, hmiddle⟩, rfl, hlast⟩

end Unclosed

/-- A field belongs to an element. It holds back what is inside of the element, or nothing once that
is not text and CDATA only. -/
structure OpenField.Follows (f : OpenField) (e : Unclosed selectors events) : Prop where
  field : f.field = e.selector.display
  depth : f.depth = e.depth
  mixed : f.mixed = e.inside.any (!isContent ·)
  parts : f.parts = if f.mixed then [] else e.inside

/-- A field was opened among the open elements and holds back text and CDATA only, and nothing
once its text stays as it is. -/
structure OpenField.Sound (f : OpenField) (depth : Nat) : Prop where
  pos : 1 ≤ f.depth
  le : f.depth ≤ depth
  content : ∀ part ∈ f.parts, isContent part = true
  empty : f.mixed = true → f.parts = []

namespace OpenField.Follows

variable {e : Unclosed selectors events}

theorem parts_of_mixed (h : f.Follows e) (hm : f.mixed = true) : f.parts = [] :=
  h.parts.trans (if_pos hm)

theorem parts_of_not_mixed (h : f.Follows e) (hm : ¬ f.mixed = true) : f.parts = e.inside :=
  h.parts.trans (if_neg hm)

theorem content_of_not_mixed (h : f.Follows e) (hm : ¬ f.mixed = true) :
    ∀ part ∈ e.inside, isContent part = true := by
  rw [h.mixed, Bool.not_eq_true, List.any_eq_false] at hm
  exact fun part hpart => by simpa using hm part hpart

theorem sound (h : f.Follows e) (hn : events.foldlM nest [] = .ok names) :
    f.Sound names.length := by
  refine ⟨?_, ?_, fun part hpart => ?_, h.parts_of_mixed⟩
  · rw [h.depth]
    exact Nat.le_add_left 1 _
  · rw [h.depth, e.length_eq hn]
    exact Nat.le_add_left _ _
  · by_cases hm : f.mixed = true
    · rw [h.parts_of_mixed hm] at hpart
      exact absurd hpart List.not_mem_nil
    · rw [h.parts_of_not_mixed hm] at hpart
      exact h.content_of_not_mixed hm part hpart

theorem start (hn : events.foldlM nest [] = .ok names) {tag : List Char} {s : Selector}
    (hs : selectors.find? (·.selects tag) = some s) (index : Nat) :
    OpenField.Follows ⟨s.display, index, names.length + 1, [], false⟩ (Unclosed.start hn hs) :=
  ⟨rfl, rfl, rfl, rfl⟩

theorem hold (h : f.Follows e) {inner : List (List Char)} (hn : nest e.inner event = .ok inner)
    (hc : isContent event = true) :
    OpenField.Follows (if f.mixed then f else { f with parts := f.parts ++ [event] })
      (e.extend hn) := by
  have hmixed : f.mixed = (e.extend hn).inside.any (!isContent ·) := by
    rw [e.any_inside_extend, hc, h.mixed, Bool.not_true, Bool.or_false]
  split
  · next hm => exact ⟨h.field, h.depth, hmixed, (h.parts_of_mixed hm).trans (if_pos hm).symm⟩
  · next hm =>
    refine ⟨h.field, h.depth, hmixed, ?_⟩
    dsimp only
    rw [h.parts_of_not_mixed hm, if_neg hm]
    rfl

/-- With anything else inside of the element nothing is held back any more. -/
theorem release (h : f.Follows e) {inner : List (List Char)} (hn : nest e.inner event = .ok inner)
    (hc : isContent event = false) :
    OpenField.Follows { f with parts := [], mixed := true } (e.extend hn) := by
  refine ⟨h.field, h.depth, ?_, rfl⟩
  rw [e.any_inside_extend, hc, Bool.not_false, Bool.or_true]

theorem mixed_of_inner (h : f.Follows e) (hi : e.inner ≠ []) : f.mixed = true ∧ f.parts = [] := by
  have hm : f.mixed = true := by
    by_contra hm
    have hnil : (e.inside ++ []).foldlM nest [] = .ok [] :=
      nest_content (h.content_of_not_mixed hm) []
    rw [List.append_nil, e.nested] at hnil
    exact hi (Except.ok.inj hnil)
  exact ⟨hm, h.parts_of_mixed hm⟩

theorem stay (h : f.Follows e) {inner : List (List Char)} {name : List Char}
    (hn : nest e.inner (.closing name) = .ok inner) : f.Follows (e.extend hn) := by
  obtain ⟨hm, hparts⟩ := h.mixed_of_inner (ne_nil_of_nest_closing hn)
  have hsame : { f with parts := [], mixed := true } = f := by rw [← hm, ← hparts]
  exact hsame ▸ h.release hn rfl

end OpenField.Follows

/-- The open elements are counted as the reader does. An open field belongs to a selected element
that is open, and none of those is around it. -/
structure Tracked (selectors : List Selector) (events : List Event) (names : List (List Char))
    (p : Progress σ) : Prop where
  nested : events.foldlM nest [] = .ok names
  depth : p.depth = names.length
  opened : ∀ f, p.current = some f → ∃ e : Unclosed selectors events, f.Follows e
  outermost : ∀ e : Unclosed selectors events, ∃ f, p.current = some f ∧ f.depth ≤ e.depth

namespace Tracked

theorem sound (h : Tracked selectors events names p) (hf : p.current = some f) :
    f.Sound p.depth := by
  obtain ⟨e, hfollows⟩ := h.opened f hf
  rw [h.depth]
  exact hfollows.sound h.nested

theorem isSome_iff (h : Tracked selectors events names p) :
    p.current.isSome = true ↔ Nonempty (Unclosed selectors events) := by
  rw [Option.isSome_iff_exists]
  constructor
  · rintro ⟨f, hf⟩
    exact (h.opened f hf).nonempty
  · rintro ⟨e⟩
    obtain ⟨f, hf, -⟩ := h.outermost e
    exact ⟨f, hf⟩

theorem current_ne_none (h : Tracked selectors events names p) (e : Unclosed selectors events) :
    p.current ≠ none :=
  Option.isSome_iff_ne_none.1 (h.isSome_iff.2 ⟨e⟩)

theorem current_eq_none (h : Tracked selectors events names p) (hd : p.depth = 0) :
    p.current = none := by
  rw [Option.eq_none_iff_forall_ne_some]
  intro f hf
  have hsound := h.sound hf
  have := hsound.pos.trans hsound.le
  omega

theorem initial (selectors : List Selector) (memory : σ) :
    Tracked selectors [] [] (Progress.initial memory) := by
  refine ⟨rfl, rfl, nofun, fun e => ?_⟩
  exact absurd e.events_eq.symm (by simp)

theorem keep (h : Tracked selectors events names p) (hn : nest names event = .ok next)
    (hd : q.depth = next.length) (hf : p.current = some f) (hg : q.current = some g)
    (hdepth : g.depth = f.depth)
    (hfollows : ∃ e : Unclosed selectors (events ++ [event]), g.Follows e) :
    Tracked selectors (events ++ [event]) next q := by
  refine ⟨foldlM_nest_snoc h.nested hn, hd, fun other ho => ?_, fun e => ⟨g, hg, ?_⟩⟩
  · rwa [← Option.some.inj (hg.symm.trans ho)]
  · rw [hdepth]
    rcases e.opened_or_open with ⟨-, houter⟩ | ⟨earlier, hearlier, -⟩
    · -- The event opens an element inside of the field.
      have hle := (h.sound hf).le
      rw [h.depth, Except.ok.inj (h.nested.symm.trans houter)] at hle
      exact hle.trans (Nat.le_succ _)
    · obtain ⟨other, hother, hle⟩ := h.outermost earlier
      rw [Option.some.inj (hf.symm.trans hother), ← hearlier]
      exact hle

/-- Without an open field, an event that opens none leaves none open. -/
theorem outside (h : Tracked selectors events names p) (hn : nest names event = .ok next)
    (hd : q.depth = next.length) (hp : p.current = none) (hq : q.current = none)
    (hs : ∀ tag, event = .opening tag → selectors.find? (·.selects tag) = none) :
    Tracked selectors (events ++ [event]) next q := by
  refine ⟨foldlM_nest_snoc h.nested hn, hd, fun f hf => ?_, fun e => ?_⟩
  · rw [hq] at hf
    cases hf
  · rcases e.opened_or_open with ⟨hevent, -⟩ | ⟨earlier, -, -⟩
    · cases (hs _ hevent).symm.trans e.selected
    · exact absurd hp (h.current_ne_none earlier)

/-- Without an open field, no selected element is open around the one that opens a field. -/
theorem enter (h : Tracked selectors events names p) (hp : p.current = none) {tag : List Char}
    {s : Selector} (hs : selectors.find? (·.selects tag) = some s) (index : Nat)
    (hd : q.depth = names.length + 1)
    (hq : q.current = some ⟨s.display, index, names.length + 1, [], false⟩) :
    Tracked selectors (events ++ [.opening tag]) (tagName tag :: names) q := by
  refine ⟨foldlM_nest_snoc h.nested rfl, hd, fun f hf => ?_, fun e => ⟨_, hq, ?_⟩⟩
  · rw [← Option.some.inj (hq.symm.trans hf)]
    exact ⟨_, OpenField.Follows.start h.nested hs index⟩
  · rcases e.opened_or_open with ⟨-, houter⟩ | ⟨earlier, -, -⟩
    · rw [Except.ok.inj (h.nested.symm.trans houter)]
      exact Nat.le_refl _
    · exact absurd hp (h.current_ne_none earlier)

theorem opening (h : Tracked selectors events names p) (preferCdata : Bool)
    (transform : Transform σ) (tag : List Char) :
    Tracked selectors (events ++ [.opening tag]) (tagName tag :: names)
      (p.step selectors preferCdata transform (.opening tag)) := by
  have hn : nest names (.opening tag) = .ok (tagName tag :: names) := rfl
  have hd : (p.step selectors preferCdata transform (.opening tag)).depth = names.length + 1 :=
    p.depth_step preferCdata transform hn h.depth
  cases hc : p.current with
  | some f =>
    obtain ⟨e, hfollows⟩ := h.opened f hc
    rw [Progress.step_inner (by rw [hc]; rfl)] at hd ⊢
    have hcurrent : p.release.current = some { f with parts := [], mixed := true } := by
      rw [Progress.release, hc]
    exact h.keep hn hd hc (g := { f with parts := [], mixed := true }) hcurrent rfl
      ⟨_, hfollows.release rfl rfl⟩
  | none =>
    cases hs : selectors.find? (·.selects tag) with
    | none =>
      refine h.outside hn hd hc ?_ fun other ho => Event.opening.inj ho ▸ hs
      simp [Progress.step, Progress.enter, Progress.emit, hc, hs]
    | some s =>
      refine h.enter hc hs p.seen hd ?_
      rw [Progress.step_opening hc hs, ← h.depth]
      rfl

/-- The innermost element that is closed is the one of the field, so no selected element is open
any more. -/
theorem leave (h : Tracked selectors events names p) {name : List Char}
    (hn : nest names (.closing name) = .ok next) (hd : q.depth = next.length)
    (hf : p.current = some f) (hdepth : f.depth = names.length) (hq : q.current = none) :
    Tracked selectors (events ++ [.closing name]) next q := by
  refine ⟨foldlM_nest_snoc h.nested hn, hd, fun g hg => ?_, fun e => ?_⟩
  · rw [hq] at hg
    cases hg
  · rcases e.opened_or_open with ⟨hevent, -⟩ | ⟨earlier, -, hinner⟩
    · cases hevent
    · obtain ⟨other, hother, hle⟩ := h.outermost earlier
      rw [← Option.some.inj (hf.symm.trans hother), hdepth, earlier.length_eq h.nested] at hle
      have hlength := List.length_pos_iff.2 (ne_nil_of_nest_closing hinner)
      omega

theorem closing (h : Tracked selectors events names p) (preferCdata : Bool)
    (transform : Transform σ) {name : List Char} (hn : nest names (.closing name) = .ok next) :
    Tracked selectors (events ++ [.closing name]) next
      (p.step selectors preferCdata transform (.closing name)) := by
  have hd : (p.step selectors preferCdata transform (.closing name)).depth = next.length :=
    p.depth_step preferCdata transform hn h.depth
  cases hc : p.current with
  | none =>
    refine h.outside hn hd hc ?_ nofun
    simp [Progress.step, Progress.emit, hc]
  | some f =>
    obtain ⟨e, hfollows⟩ := h.opened f hc
    have hlength := e.length_eq h.nested
    have hinside := hn
    rw [e.names_eq h.nested] at hinside
    rcases nest_inside hinside with ⟨inner, hinner, -⟩ | ⟨hnone, -, -⟩
    · -- An element inside of the field is closed, so the field is put back.
      have hne : e.inner ≠ [] := ne_nil_of_nest_closing hinner
      have hdepth : f.depth ≠ p.depth := by
        have hpos := List.length_pos_iff.2 hne
        rw [hfollows.depth, h.depth, hlength]
        omega
      have hcalm : p.Calm := fun g hg => by
        rw [← Option.some.inj (hc.symm.trans hg)]
        exact hfollows.mixed_of_inner hne
      refine h.keep hn hd hc ?_ rfl ⟨_, hfollows.stay hinner⟩
      rw [hcalm.step_closing, hc]
      simp [Option.filter, hdepth]
    · have hdepth : f.depth = names.length := by
        rw [hfollows.depth, hlength, hnone, List.length_nil, Nat.zero_add]
      refine h.leave hn hd hc hdepth ?_
      rw [Progress.step_closing hc (hdepth.trans h.depth.symm)]

theorem content (h : Tracked selectors events names p) (hc : isContent event = true) :
    Tracked selectors (events ++ [event]) names (p.hold event) := by
  have hn : ∀ outer, nest outer event = .ok outer := fun outer => by
    cases event <;> first | rfl | cases hc
  have hd : (p.hold event).depth = names.length := (p.depth_hold event).trans h.depth
  cases hf : p.current with
  | none =>
    refine h.outside (hn names) hd hf (by rw [Progress.hold, hf]; exact hf) fun tag htag => ?_
    rw [htag] at hc
    cases hc
  | some f =>
    obtain ⟨e, hfollows⟩ := h.opened f hf
    refine h.keep (hn names) hd hf
      (g := if f.mixed then f else { f with parts := f.parts ++ [event] }) ?_ (by split <;> rfl)
      ⟨_, hfollows.hold (hn e.inner) hc⟩
    rw [Progress.hold, hf]
    dsimp only
    split
    · exact hf
    · rfl

theorem other (h : Tracked selectors events names p) (hn : ∀ outer, nest outer event = .ok outer)
    (hc : isContent event = false) :
    Tracked selectors (events ++ [event]) names (p.release.emit event) := by
  have hd : (p.release.emit event).depth = names.length := p.depth_release.trans h.depth
  cases hf : p.current with
  | none =>
    refine h.outside (hn names) hd hf (by rw [Progress.release, hf]; exact hf) fun tag htag => ?_
    have hopen := hn []
    rw [htag] at hopen
    cases hopen
  | some f =>
    obtain ⟨e, hfollows⟩ := h.opened f hf
    exact h.keep (hn names) hd hf (g := { f with parts := [], mixed := true })
      (by rw [Progress.release, hf]; rfl) rfl ⟨_, hfollows.release (hn e.inner) hc⟩

theorem step (h : Tracked selectors events names p) (preferCdata : Bool) (transform : Transform σ)
    (hn : nest names event = .ok next) :
    Tracked selectors (events ++ [event]) next (p.step selectors preferCdata transform event) := by
  cases event with
  | opening tag =>
    obtain rfl := Except.ok.inj hn
    exact h.opening preferCdata transform tag
  | closing name => exact h.closing preferCdata transform hn
  | text raw =>
    obtain rfl := Except.ok.inj hn
    exact h.content rfl
  | cdata raw =>
    obtain rfl := Except.ok.inj hn
    exact h.content rfl
  | _ =>
    obtain rfl := Except.ok.inj hn
    exact h.other (fun _ => rfl) rfl

theorem run (h : Tracked selectors events names p) (preferCdata : Bool) (transform : Transform σ)
    {others : List Event} (hn : others.foldlM nest names = .ok next) :
    Tracked selectors (events ++ others) next
      (others.foldl (Progress.step selectors preferCdata transform) p) := by
  induction others generalizing events names p with
  | nil =>
    obtain rfl := Except.ok.inj hn
    rwa [List.append_nil]
  | cons event others ih =>
    obtain ⟨middle, hfirst, hrest⟩ := foldlM_nest_cons.1 hn
    have hmore := ih (h.step preferCdata transform hfirst) hrest
    rwa [List.append_assoc] at hmore

end Tracked

/-- What is read of the open field and not yet written. -/
def Progress.held (p : Progress σ) : List Event :=
  match p.current with
  | none => []
  | some f => f.parts

/-- What is written and then held back is what was read with changed fields replaced. -/
theorem Reached.passed_held {pieces : List Piece} (h : Reached selectors pieces p) :
    Passed selectors pieces (p.written.toList ++ p.held) p.changes.toList := by
  rcases h with h | ⟨front, start, body, f, rfl, h⟩
  · have hheld : p.held = [] := by
      unfold Progress.held
      split
      · rfl
      · next f hf => exact (h.released f hf).2
    rw [hheld, List.append_nil]
    exact h.passed
  · obtain ⟨written, hwritten, hpassed⟩ := h.passed
    have hkept := hpassed.append (Passed.kept selectors (start :: body))
    rw [List.append_nil] at hkept
    have hheld : p.held = body.map Piece.event := by rw [Progress.held, h.current, ← h.parts]
    rwa [hwritten, hheld, List.append_assoc]

/-- The reader lets no end tag through that does not close the innermost element. -/
theorem exists_nest_readFrom (length : Nat) (names : List (List Char)) (text : List Char) :
    ∃ last, (readFrom length names text).events.foldlM nest names = .ok last := by
  fun_induction readFrom length names text with
  | case1 names => exact ⟨names, rfl⟩
  | case2 names => exact ⟨names, rfl⟩
  | case3 names => exact ⟨names, rfl⟩
  | case4 names text _ step event _ inner hnest ih =>
    obtain ⟨last, hlast⟩ := ih
    exact ⟨last, foldlM_nest_cons.2 ⟨inner, hnest, hlast⟩⟩

theorem exists_nest_readDocument (document : List Char) :
    ∃ last, (readDocument document).events.foldlM nest [] = .ok last :=
  exists_nest_readFrom _ [] _

theorem Tracked.depth_pos (h : Tracked selectors events names p) {name : List Char}
    (hn : nest names (.closing name) = .ok next) : 1 ≤ p.depth := by
  rw [h.depth]
  exact List.length_pos_iff.2 (ne_nil_of_nest_closing hn)

variable {preferCdata : Bool} {transform : Transform σ} {document : List Char} {memory : σ}
  {front rest : List Event}

/-- Between any two events of a document the count of open elements is right, and it is not zero in
front of an end tag. A field is open exactly while a selected element is; it holds back text and
CDATA only, and nothing once something else is inside. What is written, followed by what is held
back, is what was read with nothing but changed fields replaced. So where no element is open nothing
is held back, and that is how a document that is converted ends. -/
theorem tracked_between_events (h : (readDocument document).events = front ++ rest) :
    let p := front.foldl (Progress.step selectors preferCdata transform) (Progress.initial memory)
    (∃ names, Tracked selectors front names p) ∧
      (∀ name after, rest = .closing name :: after → 1 ≤ p.depth) ∧
      (p.current.isSome = true ↔ Nonempty (Unclosed selectors front)) ∧
      (∀ f, p.current = some f → f.Sound p.depth) ∧
      Passed selectors (front.map Piece.ofEvent) (p.written.toList ++ p.held) p.changes.toList ∧
      (p.depth = 0 → p.current = none ∧
        Passed selectors (front.map Piece.ofEvent) p.written.toList p.changes.toList) ∧
      ∀ d, (convertFields selectors preferCdata transform document memory).result = .ok d →
        rest = [] → p.depth = 0 ∧ d.changes = p.changes.toList ∧
          d.content = if d.changes = [] then document
            else (cutByteOrderMark document).1 ++ Event.sourceAll p.written.toList := by
  intro p
  obtain ⟨last, hlast⟩ := exists_nest_readDocument document
  rw [h] at hlast
  obtain ⟨names, hfront, hrest⟩ := foldlM_nest_split.1 hlast
  have htracked : Tracked selectors front names p :=
    (Tracked.initial selectors memory).run preferCdata transform hfront
  have hreached : Reached selectors (front.map Piece.ofEvent) p := by
    have hrun := (reached_initial selectors memory).run preferCdata transform
      (front.map Piece.ofEvent)
    rwa [map_event_ofEvent] at hrun
  refine ⟨⟨names, htracked⟩, ?_, htracked.isSome_iff, fun f hf => htracked.sound hf,
    hreached.passed_held, fun hd => ?_, fun d hd hall => ?_⟩
  · rintro name after rfl
    obtain ⟨outer, hclosing, -⟩ := foldlM_nest_cons.1 hrest
    exact htracked.depth_pos hclosing
  · exact ⟨htracked.current_eq_none hd, hreached.passed hd⟩
  · obtain ⟨-, hdepth, hchanges, hcontent⟩ := convertFields_eq_ok hd
    rw [hall, List.append_nil] at h
    rw [lastProgress, h] at hdepth hchanges hcontent
    exact ⟨hdepth, hchanges, hcontent⟩

/-- A field is changed, and another one is held back in front of its end tag. -/
theorem tracked_between_events_held :
    let selectors : List Selector := [⟨"q".toList, none⟩]
    let transform := Transform.ofPure fun _ => "c".toList
    let document := "<r><q>a</q><q>b</q></r>".toList
    let front : List Event := [.opening "r".toList, .opening "q".toList, .text "a".toList,
      .closing "q".toList, .opening "q".toList, .text "b".toList]
    let rest : List Event := [.closing "q".toList, .closing "r".toList]
    let p := front.foldl (Progress.step selectors false transform) (Progress.initial ())
    (readDocument document).events = front ++ rest ∧
      (∃ names, Tracked selectors front names p) ∧
      (∀ name after, rest = .closing name :: after → 1 ≤ p.depth) ∧
      (p.current.isSome = true ↔ Nonempty (Unclosed selectors front)) ∧
      (∀ f, p.current = some f → f.Sound p.depth) ∧
      Passed selectors (front.map Piece.ofEvent) (p.written.toList ++ p.held) p.changes.toList ∧
      (p.depth = 0 → p.current = none ∧
        Passed selectors (front.map Piece.ofEvent) p.written.toList p.changes.toList) ∧
      ∀ d, (convertFields selectors false transform document ()).result = .ok d →
        rest = [] → p.depth = 0 ∧ d.changes = p.changes.toList ∧
          d.content = if d.changes = [] then document
            else (cutByteOrderMark document).1 ++ Event.sourceAll p.written.toList := by
  have h : (readDocument "<r><q>a</q><q>b</q></r>".toList).events =
      [.opening "r".toList, .opening "q".toList, .text "a".toList, .closing "q".toList,
        .opening "q".toList, .text "b".toList] ++ [.closing "q".toList, .closing "r".toList] := by
    decide +kernel
  exact ⟨h, tracked_between_events h⟩

end ReportMigration.Markup
