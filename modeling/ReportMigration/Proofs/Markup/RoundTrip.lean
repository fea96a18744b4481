import Mathlib
import ReportMigration.Proofs.Markup.Spelling

/-!
# Reading pieces

A document without a fault is cut into pieces, each of which is a spelling of one event, and pieces
that follow each other without two texts in a row are read as their events. So a sequence of events
is read back from the text it is written as.
-/

namespace ReportMigration.Markup

/-- An event with the text that it is read from. -/
structure Piece where
  raw : List Char
  event : Event
deriving DecidableEq, Repr

namespace Piece

def ofEvent (event : Event) : Piece :=
  ⟨event.source, event⟩

/-- A piece whose event is written back as it was read. -/
def Exact (piece : Piece) : Prop :=
  piece.raw = piece.event.source

instance (piece : Piece) : Decidable piece.Exact :=
  inferInstanceAs (Decidable (_ = _))

end Piece

/-- No two texts are next to each other. -/
def Separate (events : List Event) : Prop :=
  events.IsChain fun first second => ¬ (first.isText = true ∧ second.isText = true)

theorem separate_cons {event : Event} {events : List Event} :
    Separate (event :: events) ↔
      (∀ next ∈ events.head?, ¬ (event.isText = true ∧ next.isText = true)) ∧ Separate events :=
  List.isChain_cons

theorem separate_append {before after : List Event} :
    Separate (before ++ after) ↔ Separate before ∧ Separate after ∧
      ∀ last ∈ before.getLast?, ∀ next ∈ after.head?, ¬ (last.isText = true ∧ next.isText = true) :=
  List.isChain_append

/-- Pieces in which each text is as long as it can be. -/
structure Spelt (pieces : List Piece) : Prop where
  spelling : ∀ piece ∈ pieces, Spelling piece.raw piece.event
  separate : Separate (pieces.map Piece.event)

theorem Spelt.tail {piece : Piece} {pieces : List Piece} (h : Spelt (piece :: pieces)) :
    Spelt pieces :=
  ⟨fun p hp => h.spelling p (List.mem_cons_of_mem _ hp), (separate_cons.1 h.separate).2⟩

theorem Spelling.head {raw : List Char} {event : Event} (h : Spelling raw event) :
    raw.head?.map (· == '<') = some !event.isText := by
  cases raw with
  | nil => exact absurd rfl h.ne_nil
  | cons c raw =>
    have hread : readEvent (c :: raw) = (.ok event, []) := by
      have hr := h.reads [] fun _ => rfl
      rwa [List.append_nil] at hr
    by_cases hc : c = '<'
    · subst hc
      obtain ⟨_, _, _, hk⟩ := readEvent_markup hread
      simp [hk]
    · rw [readEvent_eq_text hc] at hread
      have he := Except.ok.inj (Prod.mk.inj hread).1
      simp [← he, hc, Event.isText]

theorem Spelt.head {pieces : List Piece} (h : Spelt pieces) :
    (pieces.flatMap Piece.raw).head?.map (· == '<') =
      (pieces.map Piece.event).head?.map (!·.isText) := by
  cases pieces with
  | nil => rfl
  | cons piece pieces =>
    have hs := h.spelling piece List.mem_cons_self
    have hhead := hs.head
    cases hr : piece.raw with
    | nil => exact absurd hr hs.ne_nil
    | cons c raw =>
      rw [hr] at hhead
      rw [List.flatMap_cons, hr]
      simpa using hhead

theorem Spelt.all_head {event : Event} {pieces : List Piece} (h : Spelt pieces) :
    (event.isText = true → (pieces.flatMap Piece.raw).head?.all (· == '<') = true) ↔
      ∀ next ∈ (pieces.map Piece.event).head?, ¬ (event.isText = true ∧ next.isText = true) := by
  have hhead := h.head
  cases hr : (pieces.flatMap Piece.raw).head? with
  | none =>
    rw [hr] at hhead
    have hn : (pieces.map Piece.event).head? = none := by simpa using hhead.symm
    simp [hn]
  | some c =>
    rw [hr] at hhead
    obtain ⟨next, hn, hc⟩ : ∃ next, (pieces.map Piece.event).head? = some next ∧
        (!next.isText) = (c == '<') := by simpa using hhead.symm
    rw [hn, Option.all_some, ← hc]
    simp

variable {length : Nat} {names names' : List (List Char)}

theorem readFrom_cons {text rest : List Char} {event : Event} (hne : text ≠ [])
    (hread : readEvent text = (.ok event, rest)) (hnest : nest names event = .ok names') :
    readFrom length names text = (readFrom length names' rest).cons event := by
  rw [readFrom, dif_neg hne]
  simp only [hread, hnest]

theorem Spelt.readFrom_eq {pieces : List Piece} (h : Spelt pieces)
    (hnest : (pieces.map Piece.event).foldlM nest names = .ok names') :
    readFrom length names (pieces.flatMap Piece.raw) = ⟨pieces.map Piece.event, none⟩ := by
  induction pieces generalizing names with
  | nil => rw [List.flatMap_nil, readFrom, dif_pos rfl, List.map_nil]
  | cons piece pieces ih =>
    have hs := h.spelling piece List.mem_cons_self
    rw [List.map_cons, List.foldlM_cons] at hnest
    cases hfirst : nest names piece.event with
    | error fault =>
      rw [hfirst] at hnest
      cases hnest
    | ok inner =>
      rw [hfirst] at hnest
      have hread := hs.reads (pieces.flatMap Piece.raw)
        (h.tail.all_head.2 (separate_cons.1 h.separate).1)
      have hne : piece.raw ++ pieces.flatMap Piece.raw ≠ [] := by simp [hs.ne_nil]
      rw [List.flatMap_cons, readFrom_cons hne hread hfirst, ih h.tail hnest]
      rfl

theorem exists_spelt {text : List Char} (h : (readFrom length names text).fault = none) :
    ∃ pieces, Spelt pieces ∧ pieces.flatMap Piece.raw = text ∧
      pieces.map Piece.event = (readFrom length names text).events ∧
      ∃ names', (pieces.map Piece.event).foldlM nest names = .ok names' := by
  induction hn : text.length using Nat.strong_induction_on generalizing text names with
  | _ n ih =>
    by_cases hne : text = []
    · subst hne
      rw [readFrom, dif_pos rfl]
      exact ⟨[], ⟨by simp, List.isChain_nil⟩, rfl, rfl, names, rfl⟩
    · cases hstep : readEvent text with
      | mk outcome rest =>
        have hlt : rest.length < n := by
          have hlen := readEvent_length_lt hne
          rw [hstep] at hlen
          exact hn ▸ hlen
        cases outcome with
        | error fault =>
          rw [readFrom, dif_neg hne] at h
          simp only [hstep] at h
          cases h
        | ok event =>
          cases hnest : nest names event with
          | error fault =>
            rw [readFrom, dif_neg hne] at h
            simp only [hstep, hnest] at h
            cases h
          | ok inner =>
            rw [readFrom_cons hne hstep hnest] at h ⊢
            obtain ⟨raw, htext, hs, hend⟩ := readEvent_eq_ok hne hstep
            obtain ⟨pieces, hp, hraw, hevents, names', hfold⟩ := ih _ hlt h rfl
            refine ⟨⟨raw, event⟩ :: pieces, ⟨?_, ?_⟩, ?_, ?_, names', ?_⟩
            · intro piece hmem
              rcases List.mem_cons.1 hmem with rfl | hmem
              · exact hs
              · exact hp.spelling piece hmem
            · refine separate_cons.2 ⟨hp.all_head.1 ?_, hp.separate⟩
              rwa [hraw]
            · rw [List.flatMap_cons, hraw, htext]
            · rw [List.map_cons, hevents]
              rfl
            · rw [List.map_cons, List.foldlM_cons, hnest]
              exact hfold

/-- Events that are read back from the text they are written as. -/
structure ReadsBack (events : List Event) : Prop where
  spelling : ∀ event ∈ events, Spelling event.source event
  separate : Separate events

theorem Spelt.readsBack {pieces : List Piece} (h : Spelt pieces) :
    ReadsBack (pieces.map Piece.event) := by
  refine ⟨fun event he => ?_, h.separate⟩
  obtain ⟨piece, hp, rfl⟩ := List.mem_map.1 he
  exact (h.spelling piece hp).back

theorem map_event_ofEvent (events : List Event) :
    (events.map Piece.ofEvent).map Piece.event = events := by
  rw [List.map_map]
  exact List.map_id events

theorem flatMap_raw_ofEvent (events : List Event) :
    (events.map Piece.ofEvent).flatMap Piece.raw = Event.sourceAll events := by
  rw [List.flatMap_map]
  rfl

theorem ReadsBack.spelt {events : List Event} (h : ReadsBack events) :
    Spelt (events.map Piece.ofEvent) := by
  refine ⟨fun piece hp => ?_, (map_event_ofEvent events).symm ▸ h.separate⟩
  obtain ⟨event, he, rfl⟩ := List.mem_map.1 hp
  exact h.spelling event he

theorem ReadsBack.readFrom_eq {events : List Event} (h : ReadsBack events)
    (hnest : events.foldlM nest names = .ok names') :
    readFrom length names (Event.sourceAll events) = ⟨events, none⟩ := by
  rw [← map_event_ofEvent events] at hnest
  rw [← flatMap_raw_ofEvent, h.spelt.readFrom_eq hnest, map_event_ofEvent]

end ReportMigration.Markup
