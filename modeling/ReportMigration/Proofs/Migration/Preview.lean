import ReportMigration.Proofs.Migration.Effects
import ReportMigration.Proofs.Migration.Saving

/-!
# Dry runs

A dry run leaves the disk as it is and says what a real run from there would do: the documents are
the same, and those that it would change are changed in the same way, unless they cannot be saved.
-/

namespace ReportMigration.Migration

open Storage Report

def withDryRun (settings : Settings) (dryRun : Bool) : Settings :=
  { settings with output := { settings.output with dryRun } }

/-- How the entry of a dry run comes true when the document is saved on a disk, with the disk behind
it. A document that is to be changed can fail because its backup or its write fails. -/
inductive Realises (settings : Settings) (disk : Disk) : Entry → Entry → Disk → Prop
  | unchanged {entry : Entry} (h : entry.status = .unchanged) :
    Realises settings disk entry entry disk
  | failed {entry : Entry} (h : entry.status = .failed) : Realises settings disk entry entry disk
  | changed {path : OsText} {text : String} {fragments : List Change} {backup : Option OsText}
    {kept after : Disk} (hk : keepOn settings path disk = .ok (backup, kept))
    (hw : writeOn settings path text kept = (none, after)) :
    Realises settings disk (previewedEntry path fragments)
      { path, status := .changed, fragmentsChanged := fragments.length, backup,
        changes := fragments } after
  | notKept {path : OsText} {fragments : List Change} {fault : IoFault}
    (hk : keepOn settings path disk = .error fault) :
    Realises settings disk (previewedEntry path fragments)
      { path, status := .failed, error := some (Failure.io fault).message,
        changes := fragments } disk
  | notWritten {path : OsText} {text : String} {fragments : List Change} {backup : Option OsText}
    {kept after : Disk} {failure : Failure} (hk : keepOn settings path disk = .ok (backup, kept))
    (hw : writeOn settings path text kept = (some failure, after)) :
    Realises settings disk (previewedEntry path fragments)
      { path, status := .failed, backup, error := some failure.message,
        changes := fragments } after

/-- How the entries of a dry run come true one after the other. -/
inductive RealisesEach (settings : Settings) : Disk → List Entry → List Entry → Disk → Prop
  | nil {disk : Disk} : RealisesEach settings disk [] [] disk
  | cons {disk next last : Disk} {entry entry' : Entry} {entries entries' : List Entry}
    (first : Realises settings disk entry entry' next)
    (rest : RealisesEach settings next entries entries' last) :
    RealisesEach settings disk (entry :: entries) (entry' :: entries') last

variable {settings : Settings} {disk last : Disk} {entry entry' : Entry}
  {entries entries' : List Entry}

theorem Realises.same_path (h : Realises settings disk entry entry' last) :
    entry.path = entry'.path := by
  cases h <;> rfl

theorem Realises.status (h : Realises settings disk entry entry' last) :
    entry.status ≠ .changed ∧ entry'.status ≠ .previewed := by
  cases h with
  | unchanged h => simp [h]
  | failed h => simp [h]
  | _ => exact ⟨nofun, nofun⟩

theorem RealisesEach.same_paths (h : RealisesEach settings disk entries entries' last) :
    entries.map Entry.path = entries'.map Entry.path := by
  induction h with
  | nil => rfl
  | cons first _ ih => rw [List.map_cons, List.map_cons, first.same_path, ih]

theorem RealisesEach.statuses (h : RealisesEach settings disk entries entries' last) :
    (∀ entry ∈ entries, entry.status ≠ .changed) ∧
      ∀ entry ∈ entries', entry.status ≠ .previewed := by
  induction h with
  | nil => exact ⟨List.forall_mem_nil _, List.forall_mem_nil _⟩
  | cons first _ ih =>
    exact ⟨List.forall_mem_cons.2 ⟨first.status.1, ih.1⟩,
      List.forall_mem_cons.2 ⟨first.status.2, ih.2⟩⟩

/-- Without saving it, a dry run tells what comes of a document on any disk. -/
theorem realises_settleOn (settings : Settings) {document : Converted}
    (complete : document.Complete) (still disk : Disk) :
    (settleOn (withDryRun settings true) document still).2 = still ∧
      Realises (withDryRun settings false) disk
        (settleOn (withDryRun settings true) document still).1
        (settleOn (withDryRun settings false) document disk).1
        (settleOn (withDryRun settings false) document disk).2 := by
  obtain ⟨path, outcome, text⟩ := document
  cases outcome with
  | unchanged => exact ⟨rfl, .unchanged rfl⟩
  | failed reason => exact ⟨rfl, .failed rfl⟩
  | changed fragments =>
    obtain ⟨new, rfl⟩ : ∃ new, text = some new := complete fragments rfl
    refine ⟨rfl, ?_⟩
    change Realises (withDryRun settings false) disk (previewedEntry path fragments)
      (savedEntry path fragments (saveOn (withDryRun settings false) path new disk).1)
      (saveOn (withDryRun settings false) path new disk).2
    rw [saveOn]
    cases hk : keepOn (withDryRun settings false) path disk with
    | error fault => exact .notKept hk
    | ok both =>
      obtain ⟨backup, kept⟩ := both
      dsimp only
      cases hw : writeOn (withDryRun settings false) path new kept with
      | mk failure after =>
        cases failure with
        | none => exact .changed hk hw
        | some failure => exact .notWritten hk hw

theorem realises_settleAllOn (settings : Settings) {documents : List Converted}
    (complete : ∀ document ∈ documents, document.Complete) (still disk : Disk) :
    (settleAllOn (withDryRun settings true) documents still).2 = still ∧
      RealisesEach (withDryRun settings false) disk
        (settleAllOn (withDryRun settings true) documents still).1
        (settleAllOn (withDryRun settings false) documents disk).1
        (settleAllOn (withDryRun settings false) documents disk).2 := by
  induction documents generalizing disk with
  | nil => exact ⟨rfl, .nil⟩
  | cons document rest ih =>
    obtain ⟨hfirst, hrest⟩ := List.forall_mem_cons.1 complete
    obtain ⟨same, first⟩ := realises_settleOn settings hfirst still disk
    obtain ⟨stays, others⟩ := ih hrest (settleOn (withDryRun settings false) document disk).2
    simp only [settleAllOn, same]
    exact ⟨stays, .cons first others⟩

theorem complete_documentsOn (settings : Settings) (disk : Disk) :
    ∀ document ∈ documentsOn settings disk, document.Complete := by
  intro document member
  obtain ⟨path, -, rfl⟩ := List.mem_map.1 member
  exact convertSource_complete settings _

/-- A dry run leaves the disk as it is. It fails if the real run does, without doing anything, and
otherwise its entries come true in the real run one after the other. -/
theorem dryRun_realised (monitor : Monitor) (settings : Settings) (startedAt : Timestamp)
    (machine : Machine) :
    let dry := runBelow monitor (withDryRun settings true) startedAt machine
    let real := runBelow monitor (withDryRun settings false) startedAt machine
    dry.2.disk = machine.disk ∧
      ((∃ previewed saved : Summary, dry.1 = .ok previewed ∧ real.1 = .ok saved ∧
          previewed.entries.map Entry.path = saved.entries.map Entry.path ∧
          RealisesEach (withDryRun settings false) machine.disk previewed.entries saved.entries
            real.2.disk ∧
          (∀ entry ∈ previewed.entries, entry.status ≠ .changed) ∧
          ∀ entry ∈ saved.entries, entry.status ≠ .previewed) ∨
        ∃ failure failure' : Failure, dry.1 = .error failure ∧ real.1 = .error failure' ∧
          real.2.disk = machine.disk) := by
  intro dry real
  cases directory : machine.disk.isDirectory settings.source.root with
  | false =>
    obtain ⟨⟨failure, fails⟩, stays⟩ :=
      @run_missing (withDryRun settings true) monitor startedAt machine directory
    obtain ⟨⟨failure', fails'⟩, stays'⟩ :=
      @run_missing (withDryRun settings false) monitor startedAt machine directory
    exact ⟨stays, .inr ⟨failure, failure', fails, fails', stays'⟩⟩
  | true =>
    obtain ⟨previewed, ends, effect⟩ :=
      @run_on (withDryRun settings true) monitor startedAt machine directory
    obtain ⟨saved, ends', effect'⟩ :=
      @run_on (withDryRun settings false) monitor startedAt machine directory
    -- Both runs gather and convert the same documents.
    obtain ⟨same, realised⟩ := realises_settleAllOn settings
      (complete_documentsOn settings machine.disk) machine.disk machine.disk
    have stays : dry.2.disk = machine.disk := (Prod.mk.inj effect).2.trans same
    have comes : RealisesEach (withDryRun settings false) machine.disk previewed.entries
        saved.entries real.2.disk := by
      rw [(Prod.mk.inj effect).1, (Prod.mk.inj effect').1, (Prod.mk.inj effect').2]
      exact realised
    exact ⟨stays, .inl ⟨previewed, saved, ends, ends', comes.same_paths, comes, comes.statuses⟩⟩

end ReportMigration.Migration
