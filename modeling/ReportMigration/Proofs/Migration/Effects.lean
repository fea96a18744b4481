import ReportMigration.Proofs.Migration.Phases
import ReportMigration.Migration.Run

/-!
# What a run does to the disk

Saving a document is a function of the disk: it gives the entry of the document and the disk after
it. A run reads and converts all documents as they are on the disk before it, and then saves them
one after the other.
-/

namespace ReportMigration.Migration

open Storage Report

def pathOf (settings : Settings) (path : OsText) : OsText :=
  Path.join settings.source.root path

def backupPathOf (settings : Settings) (path : OsText) : OsText :=
  Path.join settings.source.root (path ++ settings.output.backupSuffix)

/-- The disk with the backup of a report, which may have been there before. -/
def backupOn (settings : Settings) (path : OsText) (disk : Disk) : Except IoFault Disk := do
  if ← disk.isPresent (backupPathOf settings path) then return disk
  disk.copyFile (pathOf settings path) (backupPathOf settings path)

def makeRoom (path : OsText) (disk : Disk) : Except IoFault Unit × Disk :=
  match Path.parent path with
  | some directory => disk.createDirectories directory
  | none => (.ok (), disk)

/-- The failure of an attempt to write a report, if it failed, and the disk behind it. -/
def writeOn (settings : Settings) (path : OsText) (text : String) (disk : Disk) : Option Failure × Disk :=
  match makeRoom (pathOf settings path) disk with
  | (.error fault, disk) => (some (.io fault), disk)
  | (.ok (), disk) =>
    match disk.writeContent (pathOf settings path) text.toUTF8 with
    | .ok after => (none, after)
    | .error fault => (some (.io fault), disk)

/-- The backup of a report, if backups are kept, and the disk with it. -/
def keepOn (settings : Settings) (path : OsText) (disk : Disk) :
    Except IoFault (Option OsText × Disk) :=
  if settings.output.backup then
    (some (path ++ settings.output.backupSuffix), ·) <$> backupOn settings path disk
  else .ok (none, disk)

/-- What comes of an attempt to save a report, and the disk behind it. -/
def saveOn (settings : Settings) (path : OsText) (text : String) (disk : Disk) : Saving × Disk :=
  match keepOn settings path disk with
  | .error fault => (⟨none, some (.io fault)⟩, disk)
  | .ok (backup, kept) =>
    let (failure, after) := writeOn settings path text kept
    (⟨backup, failure⟩, after)

/-- The entry of a document and the disk behind it. -/
def settleOn (settings : Settings) (document : Converted) (disk : Disk) : Entry × Disk :=
  match document.outcome with
  | .unchanged => ({ path := document.path, status := .unchanged }, disk)
  | .failed reason => ({ path := document.path, status := .failed, error := some reason }, disk)
  | .changed fragments =>
    match textToWrite settings document with
    | none => (previewedEntry document.path fragments, disk)
    | some text =>
      let (saving, after) := saveOn settings document.path text disk
      (savedEntry document.path fragments saving, after)

/-- The entries of documents that are saved one after the other, and the disk behind them. -/
def settleAllOn (settings : Settings) : List Converted → Disk → List Entry × Disk
  | [], disk => ([], disk)
  | document :: rest, disk =>
    let (entry, next) := settleOn settings document disk
    let (entries, after) := settleAllOn settings rest next
    (entry :: entries, after)

/-- The documents below the root of a disk, converted. -/
def documentsOn (settings : Settings) (disk : Disk) : List Converted :=
  (reportsOn settings disk).map fun path =>
    (convertSource settings (sourceOn settings disk path)).1

variable {settings : Settings} {before : Disk} {path : OsText} {text : String}

theorem text_of_textToWrite {document : Converted} (h : textToWrite settings document = some text) :
    document.text = some text := by
  unfold textToWrite at h
  split at h
  · cases h
  · exact h

/-- The directory of what was found once need not be created, as long as nothing has vanished. -/
theorem makeRoom_of_present {disk : Disk} {found : Tree} (start : disk.start = before.start)
    (present : ∀ place, before.tree.kindAt place ≠ none → disk.tree.kindAt place ≠ none)
    (there : before.find path = .ok found) : (makeRoom path disk).2 = disk := by
  unfold makeRoom
  cases above : Path.parent path with
  | none => rfl
  | some directory => exact Disk.createDirectories_of_present start present above there

/-- Where no directory is created, a report is written without more ado. -/
theorem writeOn_of_room {disk : Disk} (stays : (makeRoom (pathOf settings path) disk).2 = disk)
    (text : String) :
    writeOn settings path text disk = match (makeRoom (pathOf settings path) disk).1 with
      | .error fault => (some (.io fault), disk)
      | .ok () => match disk.writeContent (pathOf settings path) text.toUTF8 with
        | .ok after => (none, after)
        | .error fault => (some (.io fault), disk) := by
  rw [writeOn]
  generalize makeRoom (pathOf settings path) disk = room at stays ⊢
  obtain ⟨result, made⟩ := room
  obtain rfl : made = disk := stays
  cases result <;> rfl

theorem disk_writeOn {disk : Disk} (stays : (makeRoom (pathOf settings path) disk).2 = disk)
    (text : String) :
    (writeOn settings path text disk).2 = disk ∨
      disk.writeContent (pathOf settings path) text.toUTF8 =
        .ok (writeOn settings path text disk).2 := by
  rw [writeOn_of_room stays]
  cases (makeRoom (pathOf settings path) disk).1 with
  | error fault => exact .inl rfl
  | ok _ =>
    dsimp only
    cases disk.writeContent (pathOf settings path) text.toUTF8 with
    | error fault => exact .inl rfl
    | ok after => exact .inr rfl

/-- A backup is there before, or it is made of what the report holds, where nothing was. -/
theorem backupOn_ok {disk after : Disk} (made : backupOn settings path disk = .ok after) :
    after = disk ∧ disk.tree.kindAt (destination disk.start (backupPathOf settings path)) ≠ none ∨
      ∃ content, disk.tree.kindAt (destination disk.start (backupPathOf settings path)) = none ∧
        disk.tree.kindAt (destination disk.start (pathOf settings path)) = some (.file content) ∧
        disk.writeContent (backupPathOf settings path) content = .ok after := by
  unfold backupOn at made
  cases present : disk.isPresent (backupPathOf settings path) with
  | error fault =>
    rw [present] at made
    cases made
  | ok there =>
    rw [present] at made
    cases there with
    | true => exact .inl ⟨(Except.ok.inj made).symm, Disk.kindAt_ne_none_of_isPresent present⟩
    | false =>
      obtain ⟨content, held, written⟩ := Disk.copyFile_ok made
      exact .inr ⟨content, Disk.kindAt_eq_none_of_isPresent present written, held, written⟩

/-- The disk behind a document is the one before it, unless the text of the document is saved. -/
theorem disk_settleOn (document : Converted) (disk : Disk) :
    (settleOn settings document disk).2 = disk ∨
      ∃ text, document.text = some text ∧
        (settleOn settings document disk).2 = (saveOn settings document.path text disk).2 := by
  unfold settleOn
  cases document.outcome with
  | unchanged => exact .inl rfl
  | failed reason => exact .inl rfl
  | changed fragments =>
    cases written : textToWrite settings document with
    | none => exact .inl rfl
    | some text => exact .inr ⟨text, text_of_textToWrite written, rfl⟩

theorem computes_backupReport (settings : Settings) (path : OsText) :
    Computes
      ((Storage.below settings.source.root).backupReport path settings.output.backupSuffix :
        ExceptT Failure OnMachine OsText).run
      fun disk => match backupOn settings path disk with
        | .ok after => (.ok (path ++ settings.output.backupSuffix), after)
        | .error fault => (.error (.io fault), disk) := by
  let backup := path ++ settings.output.backupSuffix
  let target := backupPathOf settings path
  let source := pathOf settings path
  refine ((Computes.tryAsk (·.isPresent target)).andThen (g := fun present disk =>
    if present then (.ok backup, disk) else match disk.copyFile source target with
      | .ok after => (.ok backup, after)
      | .error fault => (.error fault, disk)) fun present => ?_).asFailure.congr fun disk => ?_
  · cases present with
    | true => exact (Computes.note _ _).lift.andThen fun _ => Computes.pure _
    | false =>
      refine ((Computes.tryChange (·.copyFile source target)).andThen fun _ =>
        (Computes.note _ _).lift.andThen fun _ => Computes.pure _).congr fun disk => ?_
      cases disk.copyFile source target <;> rfl
  · dsimp only [backupOn, bind, Except.bind, pure, Except.pure]
    rcases disk.isPresent target with fault | _ | _
    · rfl
    · simp only [Bool.false_eq_true, if_false]
      cases disk.copyFile source target <;> rfl
    · rfl

theorem computes_writeReport (settings : Settings) (path : OsText) (text : String) :
    Computes
      ((Storage.below settings.source.root).writeReport path text :
        ExceptT Failure OnMachine Unit).run
      fun disk => match writeOn settings path text disk with
        | (none, after) => (.ok (), after)
        | (some failure, after) => (.error failure, after) := by
  let target := Path.join settings.source.root path
  have writes : Computes (FileSystem.writeText target text : ExceptT IoFault OnMachine Unit).run
      fun disk => match disk.writeContent target text.toUTF8 with
        | .ok after => (.ok (), after)
        | .error fault => (.error fault, disk) := Computes.tryChange _
  refine Computes.congr (Computes.asFailure (f := fun disk => match makeRoom target disk with
    | (.ok _, disk) => match disk.writeContent target text.toUTF8 with
      | .ok after => (.ok (), after)
      | .error fault => (.error fault, disk)
    | (.error fault, disk) => (.error fault, disk)) ?_) fun disk => ?_
  · unfold makeRoom
    dsimp only
    cases Path.parent target with
    | none => exact writes
    | some directory =>
      have creates : Computes
          (FileSystem.createDirectories directory : ExceptT IoFault OnMachine Unit).run
          fun disk => disk.createDirectories directory := fun _ => rfl
      refine (creates.andThen fun _ => writes).congr fun disk => ?_
      dsimp only
      rcases disk.createDirectories directory with ⟨_ | _, made⟩ <;> rfl
  · unfold writeOn pathOf
    rcases makeRoom target disk with ⟨_ | _, made⟩
    · rfl
    · dsimp only
      cases made.writeContent target text.toUTF8 <;> rfl

theorem computes_save (settings : Settings) (path : OsText) (text : String) :
    Computes (save settings (Storage.below settings.source.root) path text : OnMachine Saving)
      (saveOn settings path text) := by
  have writes : ∀ backup, Computes
      (write (Storage.below settings.source.root) path text backup : OnMachine Saving)
      fun disk => (⟨backup, (writeOn settings path text disk).1⟩,
        (writeOn settings path text disk).2) := by
    intro backup
    unfold write
    refine Computes.congr ((computes_writeReport settings path text).either
      (fun _ => Computes.pure _) fun failure => Computes.pure _) fun disk => ?_
    rcases writeOn settings path text disk with ⟨_ | _, after⟩ <;> rfl
  unfold save saveOn keepOn
  split
  · refine Computes.congr ((computes_backupReport settings path).either
      (fun backup => writes (some backup)) fun failure => Computes.pure _) fun disk => ?_
    cases backupOn settings path disk <;> rfl
  · exact writes none

theorem computes_settle (settings : Settings) (document : Converted) :
    Computes (settle settings (Storage.below settings.source.root) document : OnMachine Entry)
      (settleOn settings document) := by
  unfold settle settleOn
  cases document.outcome with
  | unchanged => exact Computes.pure _
  | failed reason => exact Computes.pure _
  | changed fragments =>
    cases textToWrite settings document with
    | none => exact (Computes.note _ _).bind fun _ => Computes.pure _
    | some text =>
      refine (computes_save settings document.path text).bind
        (g := fun saving disk => (savedEntry document.path fragments saving, disk)) fun saving => ?_
      refine Computes.bind (f := fun disk => ((), disk)) ?_ fun _ => Computes.pure _
      unfold noteSaving
      cases saving.failure <;> exact Computes.note _ _

theorem computes_settleAll (settings : Settings) (documents : List Converted) :
    Computes (documents.mapM (settle settings (Storage.below settings.source.root)) :
      OnMachine (List Entry)) (settleAllOn settings documents) := by
  induction documents with
  | nil => exact Computes.pure _
  | cons document rest ih =>
    rw [List.mapM_cons]
    exact (computes_settle settings document).bind fun _ => ih.bind fun _ => Computes.pure _

/-- A run over the reports below the root, on a machine. -/
abbrev runBelow (monitor : Monitor) (settings : Settings) (startedAt : Timestamp) :
    ExceptT Failure OnMachine Summary :=
  run monitor (phases settings (Storage.below settings.source.root) startedAt)

variable {monitor : Monitor} {startedAt : Timestamp}

theorem attempts_run_of_saveAll {Q : Summary → Disk → Prop} {failed : Disk → Prop}
    (missing : before.isDirectory settings.source.root = false → failed before)
    (saves : before.isDirectory settings.source.root = true → Attempts (· = before)
      (saveAll settings (Storage.below settings.source.root) startedAt
        (documentsOn settings before) : ExceptT Failure OnMachine Summary) Q failed) :
    Attempts (· = before) (runBelow monitor settings startedAt) Q failed := by
  unfold runBelow run
  refine Attempts.bind (attempts_note _ _) fun _ => ?_
  refine Attempts.bind (Attempts.lift (Ensures.notePhase _ _)) fun _ => ?_
  refine Attempts.bind (attempts_note _ _) fun _ => ?_
  refine Attempts.bind (attempts_gather.mono (fun _ h => h) (fun _ _ h => h) ?_) fun sources => ?_
  · rintro disk ⟨rfl, absent⟩
    exact missing absent
  refine Attempts.bind (attempts_note _ _) fun _ => ?_
  refine Attempts.bind (Attempts.lift (Ensures.notePhase _ _)) fun _ => ?_
  refine Attempts.bind (attempts_note _ _) fun _ => ?_
  refine Attempts.bind (attempts_convertAll sources) fun documents => ?_
  refine Attempts.bind (Attempts.lift (Ensures.notePhase _ _)) fun _ => ?_
  refine Attempts.bind (attempts_note _ _) fun _ => ?_
  refine Attempts.bind (Q := Q) ?_ fun summary => ?_
  · refine Ensures.assume (fun _ h => h.1.2.1) fun directory => ?_
    refine Ensures.assume (fun _ h => h.1.2.2) fun gathered => ?_
    refine Ensures.assume (fun _ h => h.2) fun converted => ?_
    have given : documents = documentsOn settings before := by
      rw [converted, gathered, List.map_map]
      rfl
    rw [given]
    exact (saves directory).mono (fun _ h => h.1.1) (fun _ _ h => h) fun _ h => h
  refine Attempts.bind (Attempts.lift (Ensures.notePhase _ _)) fun _ => ?_
  refine Attempts.bind (attempts_note _ _) fun _ => ?_
  have ends : Attempts (Q summary)
      (do ExceptT.lift monitor.noteEnd; Pure.pure summary : ExceptT Failure OnMachine Summary)
      Q failed :=
    Attempts.bind (Attempts.lift (Ensures.noteEnd _)) fun _ => Attempts.pure fun _ h => h
  dsimp only
  split
  · exact Attempts.bind (attempts_note _ _) fun _ => ends
  · exact ends

theorem attempts_saveAll_on (documents : List Converted) {failed : Disk → Prop} :
    Attempts (· = before)
      (saveAll settings (Storage.below settings.source.root) startedAt documents :
        ExceptT Failure OnMachine Summary)
      (fun summary disk => (summary.entries, disk) = settleAllOn settings documents before)
      failed := by
  have settles := computes_settleAll settings documents
  refine Attempts.lift (Ensures.bind (Q := fun entries disk =>
    (entries, disk) = settleAllOn settings documents before) ?_ fun entries => ?_)
  · rintro machine rfl
    exact settles machine
  · exact Ensures.bind Ensures.now fun _ => Ensures.pure fun _ h => h

/-- A run on a machine whose disk has a directory for a root succeeds, with the entries and the disk
that come of saving the documents there one after the other. -/
theorem run_on {machine : Machine}
    (directory : machine.disk.isDirectory settings.source.root = true) :
    ∃ summary, (runBelow monitor settings startedAt machine).1 = .ok summary ∧
      (summary.entries, (runBelow monitor settings startedAt machine).2.disk) =
        settleAllOn settings (documentsOn settings machine.disk) machine.disk := by
  have saves : Attempts (· = machine.disk) (runBelow monitor settings startedAt)
      (fun summary disk => (summary.entries, disk) =
        settleAllOn settings (documentsOn settings machine.disk) machine.disk)
      fun _ => False :=
    attempts_run_of_saveAll
      (fun missing => absurd (missing.symm.trans directory) Bool.false_ne_true)
      fun _ => attempts_saveAll_on _
  obtain ⟨succeeds, fails⟩ := saves machine rfl
  cases ends : (runBelow monitor settings startedAt machine).1 with
  | error failure => exact (fails failure ends).elim
  | ok summary => exact ⟨summary, rfl, succeeds summary ends⟩

theorem run_missing {machine : Machine}
    (missing : machine.disk.isDirectory settings.source.root = false) :
    (∃ failure, (runBelow monitor settings startedAt machine).1 = .error failure) ∧
      (runBelow monitor settings startedAt machine).2.disk = machine.disk := by
  have stops : Attempts (· = machine.disk) (runBelow monitor settings startedAt)
      (fun _ _ => False) (· = machine.disk) :=
    attempts_run_of_saveAll (fun _ => rfl)
      fun directory => absurd (missing.symm.trans directory) Bool.false_ne_true
  obtain ⟨succeeds, fails⟩ := stops machine rfl
  cases ends : (runBelow monitor settings startedAt machine).1 with
  | error failure => exact ⟨⟨failure, rfl⟩, fails failure ends⟩
  | ok summary => exact (succeeds summary ends).elim

end ReportMigration.Migration
