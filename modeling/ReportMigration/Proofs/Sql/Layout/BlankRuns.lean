import ReportMigration.Proofs.Text.Confined
import ReportMigration.Proofs.Text.Spacing
import ReportMigration.Sql.Layout

/-!
# What blank lines leave of white space

A run of line breaks ends before any other character, so runs are cut down gap by gap.
-/

namespace ReportMigration.Sql.Layout

open Text Scan

variable {c d : Char} {g x : List Char}

theorem isBlank_of_isBreakChar (h : isBreakChar c = true) : isBlank c = true := by
  simp only [isBreakChar, Bool.or_eq_true, beq_iff_eq] at h
  rcases h with ((rfl | rfl) | rfl) | rfl <;> decide

private theorem confined_lineBreak (hd : isBreakChar d = false) : Confined d lineBreak := by
  simp only [isBreakChar, Bool.or_eq_false_iff] at hd
  obtain ⟨⟨⟨hs, ht⟩, hr⟩, hn⟩ := hd
  have hreturn : Confined d (Scan.one (· == '\r')) := Confined.one hr
  have hfeed : Confined d (Scan.one (· == '\n')) := Confined.one hn
  exact (Confined.run (by simp [hs, ht])).bind fun _ => (hreturn.orElse (.pure ())).bind fun _ => hfeed

private theorem confined_lineBreaks (hd : isBreakChar d = false) (most : Nat) :
    Confined d (lineBreaks most) := by
  induction most with
  | zero => exact .pure 0
  | succ most ih =>
    exact ((confined_lineBreak hd).bind fun _ => ih.bind fun _ => .pure _).orElse (.pure 0)

private theorem lineBreaks_beside (b : Option Char) (most : Nat) (t : List Char) :
    lineBreaks most ⟨b, t⟩ = lineBreaks most ⟨none, t⟩ := by
  induction most generalizing b t with
  | zero => rfl
  | succ most ih =>
    have hmap : ∀ b t, ((· + 1) <$> lineBreaks most) ⟨b, t⟩ = ((· + 1) <$> lineBreaks most) ⟨none, t⟩ := by
      intro b t
      have h : ∀ b, ((· + 1) <$> lineBreaks most) ⟨b, t⟩ =
          (lineBreaks most >>= fun count => pure (count + 1)) ⟨b, t⟩ := fun _ => rfl
      rw [h, h, bind_apply, bind_apply, ih b]
      rfl
    have hbreak : lineBreak ⟨b, t⟩ = lineBreak ⟨none, t⟩ := rfl
    rw [lineBreaks, Scan.orElse, Scan.orElse, bind_apply, bind_apply, hbreak]
    cases lineBreak ⟨none, t⟩ with
    | none => rfl
    | some r =>
      simp only [Option.bind_some, Cursor.advance]
      rw [hmap ((t.take r.2).getLast?.or b), hmap ((t.take r.2).getLast?.or none)]
      rfl

theorem blankRun_beside (b : Option Char) (t : List Char) : blankRun ⟨b, t⟩ = blankRun ⟨none, t⟩ := by
  rw [blankRun, blankRun, lineBreaks_beside b]

theorem confined_blankRun (hd : isBreakChar d = false) : Confined d blankRun where
  within {c a n} h := by
    rw [blankRun] at h
    split at h
    · next count m hm =>
      split at h
      · cases h
        exact (confined_lineBreaks hd _).within hm
      · cases h
    · cases h
  stops b x z := by
    simp only [blankRun]
    rw [takeWhile_append_of_neg hd, (confined_lineBreaks hd _).stops]
  beside {b b'} x _ := by
    rw [blankRun_beside b, blankRun_beside b']

theorem yields_blankRun : Yields blankRun fun a _ => a = ['\n', '\n'] := by
  intro c a n h
  rw [blankRun] at h
  split at h
  · split at h
    · cases h
      rfl
    · cases h
  · cases h

theorem segmentsFrom_blankRun (b : Option Char) (t : List Char) :
    segmentsFrom blankRun 0 b t = blankRun.segments t := by
  cases t with
  | nil => rfl
  | cons c t => rw [segments, segmentsFrom, segmentsFrom, blankRun_beside]

theorem blankRuns_append (hd : isBreakChar d = false) (x z : List Char) :
    blankRun.substitute (x ++ d :: z) = blankRun.substitute x ++ d :: blankRun.substitute z := by
  rw [substitute, segments, (confined_blankRun hd).segmentsFrom_append, segmentsFrom_blankRun,
    segmentsFrom_blankRun, List.flatMap_append, List.flatMap_cons]
  rfl

theorem blankRuns_cell (hc : isBlank c = false) (g x : List Char) :
    blankRun.substitute (g ++ c :: x) = blankRun.substitute g ++ c :: blankRun.substitute x :=
  blankRuns_append (eq_false_of_ne_true fun h => by simp [isBlank_of_isBreakChar h] at hc) g x

theorem blankRuns_blank (hg : g.all isBlank = true) :
    (blankRun.substitute g).all isBlank = true ∧ (blankRun.substitute g = [] ↔ g = []) := by
  have hseg : ∀ s ∈ blankRun.segments g, s.replaced.all isBlank = true ∧ s.replaced ≠ [] := by
    intro s hs
    cases s with
    | plain c =>
      have hc : c ∈ (blankRun.segments g).flatMap Segment.text :=
        List.mem_flatMap.2 ⟨.plain c, hs, List.mem_singleton_self c⟩
      rw [segments_text] at hc
      exact ⟨by simpa [Segment.replaced] using List.all_eq_true.1 hg c hc, by simp [Segment.replaced]⟩
    | hit t a =>
      obtain rfl := yields_blankRun.mem_segmentsFrom 0 none g hs
      exact ⟨(by decide : ['\n', '\n'].all isBlank = true), List.cons_ne_nil _ _⟩
  constructor
  · rw [substitute, List.all_flatMap, List.all_eq_true]
    exact fun s hs => (hseg s hs).1
  · constructor
    · intro h
      cases hs : blankRun.segments g with
      | nil => rw [← segments_text blankRun g, hs, List.flatMap_nil]
      | cons s rest =>
        have hfirst := (hseg s (by simp [hs])).2
        rw [substitute, hs, List.flatMap_cons, List.append_eq_nil_iff] at h
        exact absurd h.1 hfirst
    · rintro rfl
      rfl

theorem gapwise_blankRuns : Gapwise blankRun.substitute :=
  ⟨rfl, fun hg => (blankRuns_blank hg).1, blankRuns_cell⟩

theorem ink_blankRuns (x : List Char) : ink (blankRun.substitute x) = ink x :=
  gapwise_blankRuns.ink x

theorem gap_blankRuns (x : List Char) (i : Nat) :
    gap (blankRun.substitute x) i = blankRun.substitute (gap x i) :=
  gapwise_blankRuns.gap x i

end ReportMigration.Sql.Layout
