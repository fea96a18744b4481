import ReportMigration.Proofs.Sql.Layout.Separators
import ReportMigration.Proofs.Sql.Positions.Clauses

/-!
# White space that is new

The steps of laying out put line feeds and spaces into a text and nothing else. White space that does not
stay is all new: no carriage return is in it.
-/

namespace ReportMigration.Sql.Layout

open Text Scan

variable {c d : Char} {g x : List Char} {p : Place}

theorem mem_listed (hd : d ∉ indent) (h : d ∈ listed p x) : d ∈ x := by
  induction x generalizing p with
  | nil => rwa [listed_nil] at h
  | cons e x ih =>
    rcases listed_cons p e with ⟨q, hl⟩ | ⟨-, q, hl⟩
    · rw [hl, List.mem_cons] at h
      exact List.mem_cons.2 (h.imp_right ih)
    · rw [hl, List.mem_cons, List.mem_append] at h
      exact List.mem_cons.2 (h.imp_right fun h =>
        ih ((List.dropWhile_suffix isBlank).subset (h.resolve_left hd)))

theorem cutQuantifier_append (body : List Char) :
    (cutQuantifier body).1 ++ (cutQuantifier body).2 = body := by
  rw [cutQuantifier]
  split
  · exact List.take_append_drop _ _
  · rfl

theorem mem_reflow (hd : d ∉ indent) (h : d ∈ reflow x) : d ∈ x := by
  rw [reflow_eq, List.mem_append, columns, List.mem_append] at h
  rw [← cutQuantifier_append x, List.mem_append]
  refine h.imp_right fun h => ?_
  rcases h with h | h
  · split at h
    · exact absurd h hd
    · cases h
  · exact (List.dropWhile_suffix isBlank).subset (mem_listed hd h)

theorem mem_text (hd : d ∉ indent) {clause : Clause} (h : d ∈ clause.text) :
    d ∈ clause.words ∨ d ∈ clause.body := by
  rw [Clause.text] at h
  split at h
  · exact (List.mem_append.1 h).imp_right (mem_reflow hd)
  · exact List.mem_append.1 h

theorem mem_clausesOf {segments : List (Segment (List Char))}
    (hs : ∀ segment ∈ segments, Positions.Worded segment) (h : d ∈ (clausesOf segments).1 ∨
      ∃ clause ∈ (clausesOf segments).2, d ∈ clause.words ∨ d ∈ clause.body) :
    d ∈ segments.flatMap Segment.text := by
  induction segments with
  | nil => simp [clausesOf] at h
  | cons segment segments ih =>
    obtain ⟨hsegment, hrest⟩ := List.forall_mem_cons.1 hs
    rw [List.flatMap_cons, List.mem_append]
    cases segment with
    | plain c =>
      rw [clausesOf, List.mem_cons, or_assoc] at h
      exact h.imp List.mem_singleton.2 (ih hrest)
    | hit text words =>
      obtain ⟨⟨gap, rfl⟩, -⟩ := hsegment
      rw [clausesOf] at h
      simp only [List.not_mem_nil, false_or, List.exists_mem_cons_iff, or_assoc] at h
      exact h.imp (List.mem_append_right gap) (ih hrest)

theorem mem_writeClause (hd : d ∉ indent) {out : List Char} {clause : Clause}
    (h : d ∈ Positions.writeClause out clause) : d ∈ out ∨ d ∈ clause.words ∨ d ∈ clause.body := by
  rw [Positions.writeClause, List.mem_append] at h
  refine h.imp (fun h => ?_) (mem_text hd)
  split at h
  · cases h
  · refine (List.mem_append.1 h).resolve_right fun h => hd ?_
    rw [List.mem_singleton.1 h]
    decide

theorem mem_foldl_writeClause (hd : d ∉ indent) {clauses : List Clause} {out : List Char}
    (h : d ∈ clauses.foldl Positions.writeClause out) :
    d ∈ out ∨ ∃ clause ∈ clauses, d ∈ clause.words ∨ d ∈ clause.body := by
  induction clauses generalizing out with
  | nil => exact .inl h
  | cons clause clauses ih =>
    rw [List.exists_mem_cons_iff, ← or_assoc]
    exact (ih h).imp_left (mem_writeClause hd)

theorem mem_breakClauses (hd : d ∉ indent) (h : d ∈ breakClauses x) : d ∈ x := by
  rw [Positions.breakClauses_eq] at h
  rw [← segments_text clauseStart x]
  exact mem_clausesOf (fun _ => Positions.worded_of_mem_segments) (mem_foldl_writeClause hd h)

theorem yields_connective : Yields connective fun a t =>
    ∃ front word back, t = front ++ (word ++ back) ∧ a = indent ++ word ++ [' '] := by
  refine ((yields_run₁ _).bind fun _ => (yields_anyKeyword _).written.bind fun _ =>
    (yields_run₁ _).bind fun _ => yields_pure _).mono ?_
  rintro _ _ ⟨-, front, _, rfl, -, word, _, _, rfl, ⟨rfl, -⟩, -, back, _, rfl, -, rfl, rfl⟩
  exact ⟨front, word, back, by simp, rfl⟩

theorem mem_connectives (hd : d ∉ indent) (h : d ∈ connective.substitute x) : d ∈ x := by
  have hblank : d ∉ [' '] := fun h => hd (by rw [List.mem_singleton.1 h]; decide)
  refine mem_substitute (yields_connective.mono ?_) h
  rintro _ _ ⟨front, word, back, rfl, rfl⟩ hmem
  simp only [List.mem_append, hd, hblank, or_false, false_or] at hmem
  exact List.mem_append_right front (List.mem_append_left back hmem)

/-- The text without carriage returns: a space stands in the place of each. -/
def calm (text : List Char) : List Char :=
  text.map fun c => if c = '\r' then ' ' else c

theorem return_notMem_calm (x : List Char) : '\r' ∉ calm x := by
  intro h
  obtain ⟨c, -, hc⟩ := List.mem_map.1 h
  split at hc
  · exact absurd hc (by decide)
  · exact absurd hc ‹_›

theorem calm_cell (hc : isBlank c = false) (g x : List Char) :
    calm (g ++ c :: x) = calm g ++ c :: calm x := by
  have hne : c ≠ '\r' := by
    rintro rfl
    exact absurd hc (by decide)
  simp [calm, hne]

theorem calm_blank (hg : g.all isBlank = true) : (calm g).all isBlank = true := by
  rw [calm, List.all_map, List.all_eq_true]
  intro c hc
  have hblank := List.all_eq_true.1 hg c hc
  simp only [Function.comp_apply]
  split
  · decide
  · exact hblank

theorem gapwise_calm : Gapwise calm :=
  ⟨rfl, calm_blank, calm_cell⟩

theorem gap_calm_eq_nil (x : List Char) (i : ℕ) : gap x i = [] ↔ gap (calm x) i = [] := by
  rw [gapwise_calm.gap, calm, List.map_eq_nil_iff]

/-- White space between characters stays as it is, or no carriage return is in it afterwards. -/
def Tidies (s t : List Char) : Prop :=
  ∀ i, 0 < i → i < (ink s).length → gap t i = gap s i ∨ '\r' ∉ gap t i

theorem tidies_connectives (x : List Char) : Tidies x (connective.substitute x) := by
  intro i _ hi
  have hcalm : Matched x (calm x) := ⟨gapwise_calm.ink x, fun i _ => gap_calm_eq_nil x i,
    fun h => mt (gap_calm_eq_nil x _).1 h⟩
  have hnew : '\r' ∉ gap (connective.substitute (calm x)) i := fun h =>
    return_notMem_calm x (mem_connectives (by decide) (gap_subset _ _ h))
  have hrel := (respaced_connectives none hcalm).gaps i hi.le
  -- What is new in a gap is new in the text without carriage returns too.
  generalize gap (connective.substitute (calm x)) i = g at hnew hrel
  generalize gap (connective.substitute x) i = h at hrel ⊢
  cases hrel with
  | keep => exact .inl rfl
  | set _ _ => exact .inr hnew
  | late _ _ => exact .inr (by decide)
  | last hn => omega

theorem tidies_breakClauses (s : List Char) : Tidies s (breakClauses s) := by
  intro i h₀ hi
  cases hs : s.all isBlank with
  | true =>
    rw [ink_blank hs] at hi
    exact absurd hi (Nat.not_lt_zero i)
  | false =>
    obtain ⟨j, rfl⟩ : ∃ j, i = j + 1 := ⟨i - 1, by omega⟩
    rw [(gap_breakClauses s).2 _ h₀, ← gap_trimStart_succ s j]
    rw [← ink_trimStart] at hi
    have hcalm : Alike NoClause none (trimStart s) (calm (trimStart s)) :=
      ⟨gapwise_calm.ink _, fun i _ => .inl (gap_calm_eq_nil _ i)⟩
    have hnew : '\r' ∉ gap (breakClauses (calm (trimStart s))) (j + 1) := fun h =>
      return_notMem_calm _ (mem_breakClauses (by decide) (gap_subset _ _ h))
    have hrel := (respaced_breakClauses hcalm (breakClauses_cases s hs).1).gaps (j + 1) hi.le
    generalize gap (breakClauses (calm (trimStart s))) (j + 1) = g at hnew hrel
    generalize gap (breakClauses (trimStart s)) (j + 1) = h at hrel ⊢
    cases hrel with
    | keep => exact .inl rfl
    | set _ _ _ => exact .inr hnew
    | last hn _ _ => omega

end ReportMigration.Sql.Layout
