import Mathlib
import ReportMigration.Proofs.Markup.SideBySide

/-!
# The outermost fields of a document

A document in which every element is closed is cut, in one way only, into the outermost of the
selected elements, each with everything up to its end tag, and the pieces outside of them.
-/

namespace ReportMigration.Markup

/-- A piece outside of all fields, or a field: an outermost selected element with the selector that
selects it, its start tag, what is inside and its end tag. -/
inductive Portion where
  | plain (piece : Piece)
  | field (s : Selector) (start : Piece) (inside : List Piece) (stop : Piece)

namespace Portion

def pieces : Portion → List Piece
  | plain piece => [piece]
  | field _ start inside stop => start :: (inside ++ [stop])

/-- No selector selects what is outside of fields. A field is selected by its selector first, and
what is opened inside of it is closed inside of it. -/
inductive Valid (selectors : List Selector) : Portion → Prop
  | plain {piece : Piece}
    (h : ∀ tag, piece.event = .opening tag → selectors.find? (·.selects tag) = none) :
    Valid selectors (plain piece)
  | field {s : Selector} {start stop : Piece} {inside : List Piece} {tag name : List Char}
    (hstart : start.event = .opening tag) (hs : selectors.find? (·.selects tag) = some s)
    (hinside : (inside.map Piece.event).foldlM nest [] = .ok [])
    (hstop : stop.event = .closing name) :
    Valid selectors (field s start inside stop)

end Portion

variable {selectors : List Selector} {names : List (List Char)}

theorem foldlM_nest_cons {event : Event} {events : List Event} {last : List (List Char)} :
    (event :: events).foldlM nest names = .ok last ↔
      ∃ next, nest names event = .ok next ∧ events.foldlM nest next = .ok last := by
  rw [List.foldlM_cons]
  cases nest names event <;> simp [bind, Except.bind]

theorem nest_inside {event : Event} {inner next : List (List Char)} {name : List Char}
    (h : nest (inner ++ name :: names) event = .ok next) :
    (∃ inner', nest inner event = .ok inner' ∧ next = inner' ++ name :: names) ∨
      inner = [] ∧ (∃ closed, event = .closing closed) ∧ next = names := by
  cases event with
  | opening tag => exact .inl ⟨tagName tag :: inner, rfl, (Except.ok.inj h).symm⟩
  | closing closed =>
    cases inner with
    | nil =>
      rw [List.nil_append, nest] at h
      split at h
      · exact .inr ⟨rfl, ⟨closed, rfl⟩, (Except.ok.inj h).symm⟩
      · cases h
    | cons first inner =>
      rw [List.cons_append, nest] at h
      split at h
      · next same => exact .inl ⟨inner, if_pos same, (Except.ok.inj h).symm⟩
      · cases h
  | _ => exact .inl ⟨inner, rfl, (Except.ok.inj h).symm⟩

/-- An element that is closed has an end tag, in front of which everything inside is closed. -/
theorem exists_stop {pieces : List Piece} {inner last : List (List Char)} {name : List Char}
    (h : (pieces.map Piece.event).foldlM nest (inner ++ name :: names) = .ok last)
    (hlast : last.length ≤ names.length) :
    ∃ inside stop others closed, pieces = inside ++ stop :: others ∧
      stop.event = .closing closed ∧ (inside.map Piece.event).foldlM nest inner = .ok [] ∧
      (others.map Piece.event).foldlM nest names = .ok last := by
  induction pieces generalizing inner with
  | nil =>
    obtain rfl := Except.ok.inj h
    rw [List.length_append, List.length_cons] at hlast
    omega
  | cons piece pieces ih =>
    obtain ⟨next, hfirst, hrest⟩ := foldlM_nest_cons.1 h
    rcases nest_inside hfirst with ⟨inner', hinner, rfl⟩ | ⟨rfl, ⟨closed, hstop⟩, rfl⟩
    · obtain ⟨inside, stop, others, closed, rfl, hstop, hinside, hothers⟩ := ih hrest
      exact ⟨piece :: inside, stop, others, closed, rfl, hstop,
        foldlM_nest_cons.2 ⟨inner', hinner, hinside⟩, hothers⟩
    · exact ⟨[], piece, pieces, closed, rfl, hstop, rfl, hrest⟩

theorem not_closed_behind {inside others : List Piece} {stop : Piece} {name : List Char}
    (h : (inside.map Piece.event).foldlM nest [] = .ok []) (hstop : stop.event = .closing name)
    (last : List (List Char)) :
    ((inside ++ stop :: others).map Piece.event).foldlM nest [] ≠ .ok last := by
  intro hlast
  rw [List.map_append, List.foldlM_append, h, List.map_cons, hstop] at hlast
  cases hlast

theorem stop_unique {inside inside' others others' : List Piece} {stop stop' : Piece}
    {name name' : List Char} (h : (inside.map Piece.event).foldlM nest [] = .ok [])
    (h' : (inside'.map Piece.event).foldlM nest [] = .ok []) (hstop : stop.event = .closing name)
    (hstop' : stop'.event = .closing name')
    (he : inside ++ stop :: others = inside' ++ stop' :: others') :
    inside = inside' ∧ stop = stop' ∧ others = others' := by
  rcases List.append_eq_append_iff.1 he with ⟨more, rfl, hmore⟩ | ⟨more, rfl, hmore⟩
  · cases more with
    | nil => exact ⟨(List.append_nil _).symm, List.cons.inj hmore⟩
    | cons piece more =>
      obtain ⟨rfl, -⟩ := List.cons.inj hmore
      exact absurd h' (not_closed_behind h hstop [])
  · cases more with
    | nil =>
      obtain ⟨rfl, rfl⟩ := List.cons.inj hmore
      exact ⟨List.append_nil _, rfl, rfl⟩
    | cons piece more =>
      obtain ⟨rfl, -⟩ := List.cons.inj hmore
      exact absurd h (not_closed_behind h' hstop' [])

theorem exists_portions (selectors : List Selector) {pieces : List Piece}
    (h : (pieces.map Piece.event).foldlM nest names = .ok []) :
    ∃ portions : List Portion, (∀ portion ∈ portions, portion.Valid selectors) ∧
      portions.flatMap Portion.pieces = pieces := by
  induction hn : pieces.length using Nat.strong_induction_on generalizing pieces names with
  | _ n ih =>
    cases pieces with
    | nil => exact ⟨[], List.forall_mem_nil _, rfl⟩
    | cons piece pieces =>
      obtain ⟨next, hfirst, hrest⟩ := foldlM_nest_cons.1 h
      rw [List.length_cons] at hn
      by_cases hopens : ∃ tag s, piece.event = .opening tag ∧ selectors.find? (·.selects tag) = some s
      · obtain ⟨tag, s, hstart, hs⟩ := hopens
        have hnext : next = [] ++ tagName tag :: names := by
          rw [hstart] at hfirst
          exact (Except.ok.inj hfirst).symm
        rw [hnext] at hrest
        obtain ⟨inside, stop, others, closed, rfl, hstop, hinside, hothers⟩ :=
          exists_stop hrest (Nat.zero_le _)
        have hlt : others.length < n := by
          rw [List.length_append, List.length_cons] at hn
          omega
        obtain ⟨portions, hv, rfl⟩ := ih _ hlt hothers rfl
        refine ⟨.field s piece inside stop :: portions, ?_, by simp [Portion.pieces]⟩
        exact List.forall_mem_cons.2 ⟨.field hstart hs hinside hstop, hv⟩
      · obtain ⟨portions, hv, rfl⟩ := ih pieces.length (by omega) hrest rfl
        refine ⟨.plain piece :: portions, List.forall_mem_cons.2 ⟨.plain fun tag htag => ?_, hv⟩,
          by simp [Portion.pieces]⟩
        rw [Option.eq_none_iff_forall_ne_some]
        exact fun s hs => hopens ⟨tag, s, htag, hs⟩

theorem portions_unique {portions portions' : List Portion}
    (hv : ∀ portion ∈ portions, portion.Valid selectors)
    (hv' : ∀ portion ∈ portions', portion.Valid selectors)
    (h : portions.flatMap Portion.pieces = portions'.flatMap Portion.pieces) :
    portions = portions' := by
  induction portions generalizing portions' with
  | nil =>
    cases portions' with
    | nil => rfl
    | cons portion portions' => cases portion <;> simp [Portion.pieces] at h
  | cons portion portions ih =>
    cases portions' with
    | nil => cases portion <;> simp [Portion.pieces] at h
    | cons portion' portions' =>
      obtain ⟨hfirst, hrest⟩ := List.forall_mem_cons.1 hv
      obtain ⟨hfirst', hrest'⟩ := List.forall_mem_cons.1 hv'
      cases hfirst with
      | plain hplain =>
        cases hfirst' with
        | plain hplain' =>
          obtain ⟨rfl, hmore⟩ := List.cons.inj h
          rw [ih hrest hrest' hmore]
        | field hstart hs _ _ =>
          obtain ⟨rfl, -⟩ := List.cons.inj h
          cases (hplain _ hstart).symm.trans hs
      | field hstart hs hinside hstop =>
        cases hfirst' with
        | plain hplain' =>
          obtain ⟨rfl, -⟩ := List.cons.inj h
          cases (hplain' _ hstart).symm.trans hs
        | field hstart' hs' hinside' hstop' =>
          rw [List.flatMap_cons, List.flatMap_cons, Portion.pieces, Portion.pieces, List.cons_append,
            List.cons_append, List.append_assoc, List.append_assoc, List.cons.injEq] at h
          obtain ⟨rfl, h⟩ := h
          obtain ⟨rfl, rfl, hmore⟩ := stop_unique hinside hinside' hstop hstop' h
          obtain rfl := Event.opening.inj (hstart.symm.trans hstart')
          rw [Option.some.inj (hs.symm.trans hs'), ih hrest hrest' hmore]

end ReportMigration.Markup
