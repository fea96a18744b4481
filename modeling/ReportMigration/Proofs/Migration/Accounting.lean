import ReportMigration.Proofs.Migration.Isolation

/-!
# What the entries of a run account for

A run that succeeds gives an entry for each report that it finds, in the order in which it finds
them. The number in each entry is that of the fragments converted, and the totals are those over
all entries.
-/

namespace ReportMigration

namespace Report

/-- The document was changed, or would have been. -/
def Entry.Changes (entry : Entry) : Prop :=
  entry.status = .changed ∨ entry.status = .previewed
deriving Decidable

/-- The totals are those over the entries. -/
structure Totals.Counts (t : Totals) (entries : List Entry) : Prop where
  scanned : t.scanned = entries.length
  changed : t.changed = entries.countP fun entry => entry.Changes
  unchanged : t.unchanged = entries.countP fun entry => entry.status = .unchanged
  failed : t.failed = entries.countP fun entry => entry.status = .failed
  fragments : t.fragmentsConverted = (entries.map (·.fragmentsChanged)).sum

namespace Totals.Counts

variable {t : Totals} {entries : List Entry}

theorem count (h : t.Counts entries) (entry : Entry) :
    (t.count entry).Counts (entries ++ [entry]) := by
  obtain ⟨scanned, changed, unchanged, failed, fragments⟩ := h
  constructor
  · simp [Totals.count, scanned]
  · cases status : entry.status <;> simp [Totals.count, Entry.Changes, status, changed]
  · cases status : entry.status <;> simp [Totals.count, status, unchanged]
  · cases status : entry.status <;> simp [Totals.count, status, failed]
  · simp [Totals.count, fragments]

theorem foldl_count (h : t.Counts entries) (more : List Entry) :
    (more.foldl Totals.count t).Counts (entries ++ more) := by
  induction more generalizing t entries with
  | nil => simpa using h
  | cons entry rest ih => simpa using ih (h.count entry)

theorem ofEntries (entries : List Entry) : (Totals.ofEntries entries).Counts entries := by
  have none : Totals.Counts {} [] := ⟨rfl, rfl, rfl, rfl, rfl⟩
  exact none.foldl_count entries

theorem scanned_eq (h : t.Counts entries) : t.scanned = t.changed + t.unchanged + t.failed := by
  rw [h.scanned, h.changed, h.unchanged, h.failed]
  clear h
  induction entries with
  | nil => rfl
  | cons entry rest ih =>
    cases status : entry.status <;> simp [Entry.Changes, status, ih] <;> omega

end Totals.Counts

theorem Summary.hasFailures_iff {s : Summary} (h : s.totals.Counts s.entries) :
    s.hasFailures = true ↔ ∃ entry ∈ s.entries, entry.status = .failed := by
  rw [hasFailures, decide_eq_true_eq, h.failed, List.countP_pos_iff]
  simp

/-- The number in an entry is that of its changes, or zero if they could not be saved, and there are
changes exactly if the document was changed or would have been. -/
structure Entry.Accounts (entry : Entry) : Prop where
  fragments : entry.fragmentsChanged = if entry.status = .failed then 0 else entry.changes.length
  positive : 0 < entry.fragmentsChanged ↔ entry.Changes

end Report

namespace Migration

open Storage Report

variable {settings : Settings} {path : OsText} {text : String} {fragments : List Change}

theorem accounts_savedEntry (filled : fragments ≠ []) (path : OsText) (saving : Saving) :
    (savedEntry path fragments saving).Accounts := by
  have positive := List.length_pos_iff.2 filled
  unfold savedEntry
  cases saving.failure with
  | none => exact ⟨rfl, by simpa [Entry.Changes] using positive⟩
  | some failure => exact ⟨rfl, by simp [Entry.Changes]⟩

theorem accounts_previewedEntry (filled : fragments ≠ []) (path : OsText) :
    (previewedEntry path fragments).Accounts := by
  have positive := List.length_pos_iff.2 filled
  exact ⟨rfl, by simpa [previewedEntry, Entry.Changes] using positive⟩

theorem convertSource_changed {source : Source}
    (h : (convertSource settings source).1.outcome = .changed fragments) : fragments ≠ [] := by
  unfold convertSource at h
  split at h
  · exact nomatch h
  · dsimp only at h
    unfold outcomeOf at h
    split at h
    · split_ifs at h with none
      obtain rfl := Outcome.changed.inj h
      simpa using none
    · exact nomatch h

theorem accounts_settleOn {document : Converted}
    (filled : ∀ fragments, document.outcome = .changed fragments → fragments ≠ []) (disk : Disk) :
    (settleOn settings document disk).1.Accounts := by
  unfold settleOn
  cases outcome : document.outcome with
  | unchanged => exact ⟨rfl, by simp [Entry.Changes]⟩
  | failed reason => exact ⟨rfl, by simp [Entry.Changes]⟩
  | changed fragments =>
    cases textToWrite settings document with
    | none => exact accounts_previewedEntry (filled _ outcome) _
    | some text => exact accounts_savedEntry (filled _ outcome) _ _

theorem accounts_settleAllOn {documents : List Converted}
    (filled : ∀ document ∈ documents, ∀ fragments,
      document.outcome = .changed fragments → fragments ≠ []) (disk : Disk) :
    ∀ entry ∈ (settleAllOn settings documents disk).1, entry.Accounts := by
  induction documents generalizing disk with
  | nil => exact List.forall_mem_nil _
  | cons document rest ih =>
    obtain ⟨first, others⟩ := List.forall_mem_cons.1 filled
    exact List.forall_mem_cons.2 ⟨accounts_settleOn first disk, ih others _⟩

theorem paths_settleAllOn (settings : Settings) (documents : List Converted) (disk : Disk) :
    (settleAllOn settings documents disk).1.map (·.path) = documents.map (·.path) := by
  induction documents generalizing disk with
  | nil => rfl
  | cons document rest ih =>
    rw [settleAllOn, List.map_cons, List.map_cons, settleOn_path, ih]

theorem paths_documentsOn (settings : Settings) (disk : Disk) :
    (documentsOn settings disk).map (·.path) = reportsOn settings disk := by
  rw [documentsOn, List.map_map]
  exact (List.map_congr_left fun path _ => documentAt_path settings disk path).trans (List.map_id _)

variable {monitor : Monitor} {startedAt : Timestamp} {machine : Machine} {summary : Summary}

theorem attempts_saveAll_totals {P failed : Disk → Prop} (documents : List Converted) :
    Attempts P
      (saveAll settings (Storage.below settings.source.root) startedAt documents :
        ExceptT Failure OnMachine Summary)
      (fun summary _ => summary.totals = Totals.ofEntries summary.entries) failed := by
  refine Attempts.lift (Ensures.bind (Q := fun _ _ => True) (fun _ _ => trivial) fun entries => ?_)
  exact Ensures.bind Ensures.now fun _ => Ensures.pure fun _ _ => rfl

theorem totals_of_run (ends : (runBelow monitor settings startedAt machine).1 = .ok summary) :
    summary.totals = Totals.ofEntries summary.entries := by
  have sums : Attempts (· = machine.disk) (runBelow monitor settings startedAt)
      (fun summary _ => summary.totals = Totals.ofEntries summary.entries) fun _ => True :=
    attempts_run_of_saveAll (fun _ => trivial) fun _ => attempts_saveAll_totals _
  exact (sums machine rfl).1 summary ends

theorem entries_of_run (ends : (runBelow monitor settings startedAt machine).1 = .ok summary) :
    summary.entries =
      (settleAllOn settings (documentsOn settings machine.disk) machine.disk).1 := by
  cases directory : machine.disk.isDirectory settings.source.root with
  | false =>
    obtain ⟨⟨failure, fails⟩, -⟩ := @run_missing settings monitor startedAt machine directory
    exact nomatch fails.symm.trans ends
  | true =>
    obtain ⟨summary', ends', effect⟩ := @run_on settings monitor startedAt machine directory
    obtain rfl := Except.ok.inj (ends'.symm.trans ends)
    exact (Prod.mk.inj effect).1

/-- A run that succeeds accounts for every report that it finds, once and in the order in which it
finds them. The totals are those over the entries, in which each report is counted once by what
became of it, and the number in each entry is that of its changes, unless they could not be
saved. -/
theorem run_accounts {monitor : Monitor} {settings : Settings} {startedAt : Timestamp}
    {machine : Machine} {summary : Summary}
    (ends : (runBelow monitor settings startedAt machine).1 = .ok summary) :
    summary.entries.map (·.path) = ((discover settings : OnMachine (List OsText)) machine).1 ∧
      summary.totals.Counts summary.entries ∧
      summary.totals.scanned =
        summary.totals.changed + summary.totals.unchanged + summary.totals.failed ∧
      (summary.hasFailures = true ↔ ∃ entry ∈ summary.entries, entry.status = .failed) ∧
      ∀ entry ∈ summary.entries, entry.Accounts := by
  have counts : summary.totals.Counts summary.entries :=
    totals_of_run ends ▸ Totals.Counts.ofEntries summary.entries
  have entries := entries_of_run ends
  refine ⟨?_, counts, counts.scanned_eq, Summary.hasFailures_iff counts, ?_⟩
  · rw [entries, paths_settleAllOn, paths_documentsOn, discover_eq]
  · rw [entries]
    refine accounts_settleAllOn (fun document member fragments outcome => ?_) machine.disk
    obtain ⟨path, -, rfl⟩ := List.mem_map.1 member
    exact convertSource_changed outcome

/-- A report that cannot be read and one that is migrated are both accounted for. -/
theorem run_accounts_beside_unreadable :
    let settings : Settings := { source := { root := "root" } }
    ∃ summary, (runBelow {} settings ⟨0, 0⟩ (twoReports ⟨#[0xff]⟩)).1 = .ok summary ∧
      summary.entries.map (·.path) = ["a.xml", "b.xml"] ∧
      summary.totals = ⟨2, 1, 0, 1, 1⟩ ∧ ∃ entry ∈ summary.entries, entry.status = .failed := by
  intro settings
  obtain ⟨summary, ends, -⟩ :=
    @run_on settings {} ⟨0, 0⟩ (twoReports ⟨#[0xff]⟩) (by decide +kernel)
  obtain ⟨paths, -, -, failures, -⟩ := run_accounts ends
  have totals : (runBelow {} settings ⟨0, 0⟩ (twoReports ⟨#[0xff]⟩)).1.toOption.map (·.totals) =
      some ⟨2, 1, 0, 1, 1⟩ := by decide +kernel
  rw [ends] at totals
  obtain totals : summary.totals = ⟨2, 1, 0, 1, 1⟩ := Option.some.inj totals
  refine ⟨summary, ends, paths.trans (by decide +kernel), totals, failures.1 ?_⟩
  simp [Summary.hasFailures, totals]

end Migration

end ReportMigration
