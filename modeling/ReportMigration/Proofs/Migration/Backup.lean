import ReportMigration.Proofs.Migration.Effects
import ReportMigration.Proofs.Storage.Agreement
import ReportMigration.Program.Migration

/-!
# Reports and their backups through a run

A run writes a report only when its backup is there. It makes the backup once, from what the report
held when the run began, and writes nothing else where the backup is.
-/

namespace ReportMigration.Migration

open Storage

/-- What may have become of a disk as far as a report and its backup are concerned. Nothing has
vanished, a backup that was there holds the same, one that was not there may hold what the report
held, and the report holds something else only if there is a backup. -/
structure Kept (place aside : Place) (before after : Disk) : Prop where
  start : after.start = before.start
  proper : before.tree.isProper = true → after.tree.isProper = true
  present : ∀ other, before.tree.kindAt other ≠ none → after.tree.kindAt other ≠ none
  stays : before.tree.kindAt aside ≠ none → after.tree.kindAt aside = before.tree.kindAt aside
  copied : ∀ kind, before.tree.kindAt aside = none → after.tree.kindAt aside = some kind →
    ∃ content, kind = .file content ∧ before.tree.kindAt place = some (.file content)
  guarded : after.tree.kindAt place ≠ before.tree.kindAt place → after.tree.kindAt aside ≠ none

namespace Kept

variable {place aside : Place} {before middle after : Disk} {path : OsText} {content : ByteArray}

theorem refl (disk : Disk) : Kept place aside disk disk :=
  ⟨rfl, id, fun _ there => there, fun _ => rfl, fun _ absent made => by simp [absent] at made,
    fun changed => absurd rfl changed⟩

theorem trans (h : Kept place aside before middle) (h' : Kept place aside middle after) :
    Kept place aside before after where
  start := h'.start.trans h.start
  proper made := h'.proper (h.proper made)
  present other there := h'.present other (h.present other there)
  stays there := (h'.stays (h.present _ there)).trans (h.stays there)
  copied kind absent made := by
    cases there : middle.tree.kindAt aside with
    | none =>
      obtain ⟨content, rfl, held⟩ := h'.copied kind there made
      have same : middle.tree.kindAt place = before.tree.kindAt place := by
        by_contra changed
        exact h.guarded changed there
      exact ⟨content, rfl, same ▸ held⟩
    | some kind' =>
      have kept := h'.stays (by simp [there])
      rw [made, there, Option.some_inj] at kept
      exact kept ▸ h.copied kind' absent there
  guarded changed := by
    by_cases first : middle.tree.kindAt place = before.tree.kindAt place
    · exact h'.guarded (first ▸ changed)
    · exact h'.present _ (h.guarded first)

theorem of_elsewhere (h : before.writeContent path content = .ok after)
    (away : place ≠ destination before.start path)
    (away' : aside ≠ destination before.start path) : Kept place aside before after where
  start := Disk.start_writeContent h
  proper := isProper_writeContent h
  present _ there := Disk.present_writeContent h there
  stays _ := Disk.kindAt_writeContent_of_ne h away'
  copied _ absent made := by
    rw [Disk.kindAt_writeContent_of_ne h away', absent] at made
    exact nomatch made
  guarded changed := absurd (Disk.kindAt_writeContent_of_ne h away) changed

theorem of_backup (h : before.writeContent path content = .ok after)
    (here : aside = destination before.start path) (apart : place ≠ aside)
    (absent : before.tree.kindAt aside = none)
    (held : before.tree.kindAt place = some (.file content)) : Kept place aside before after where
  start := Disk.start_writeContent h
  proper := isProper_writeContent h
  present _ there := Disk.present_writeContent h there
  stays there := absurd absent there
  copied kind _ made := by
    rw [here, Disk.kindAt_writeContent h] at made
    exact ⟨content, (Option.some.inj made).symm, held⟩
  guarded changed := absurd (Disk.kindAt_writeContent_of_ne h (here ▸ apart)) changed

theorem of_report (h : before.writeContent path content = .ok after) (apart : place ≠ aside)
    (here : place = destination before.start path) (there : before.tree.kindAt aside ≠ none) :
    Kept place aside before after where
  start := Disk.start_writeContent h
  proper := isProper_writeContent h
  present _ there := Disk.present_writeContent h there
  stays _ := Disk.kindAt_writeContent_of_ne h (here ▸ apart.symm)
  copied _ absent _ := absurd absent there
  guarded _ := Disk.present_writeContent h there

end Kept

/-- A report and its backup, whose names are told apart. -/
structure Watched (settings : Settings) (place aside : Place) : Prop where
  valid : settings.validate = .ok ()
  kept : settings.output.backup = true
  beside : Beside settings place aside
  told : ToldApart settings place

namespace Watched

variable {settings : Settings} {place aside other otherAside : Place}

theorem dotted (h : Watched settings place aside) :
    settings.output.backupSuffix.toList.head? = some '.' :=
  (suffix_of_validate h.valid h.kept).1

theorem aside_eq_iff (h : Watched settings place aside) (h' : Beside settings other otherAside) :
    otherAside = aside ↔ other = place :=
  h.beside.aside_eq_iff h'

theorem ne_aside (h : Watched settings place aside) (h' : Beside settings other otherAside) :
    other ≠ aside :=
  h.beside.ne_aside h.dotted h.told h'

theorem ne_otherAside (h : Watched settings place aside) (h' : Beside settings other otherAside) :
    otherAside ≠ place :=
  h.beside.ne_otherAside h.dotted h.told h'

theorem apart (h : Watched settings place aside) : place ≠ aside :=
  h.ne_aside h.beside

end Watched

/-- A report that could be read below the root, beside its backup. -/
structure Readable (settings : Settings) (disk : Disk) (path : OsText) : Prop where
  beside : Beside settings (destination disk.start (pathOf settings path))
    (destination disk.start (backupPathOf settings path))
  found : ∃ tree, disk.find (pathOf settings path) = .ok tree

theorem readable_of_converted {settings : Settings} {disk : Disk} {document : Converted}
    (valid : settings.validate = .ok ()) (kept : settings.output.backup = true)
    (proper : disk.tree.isProper = true)
    (directory : disk.isDirectory settings.source.root = true)
    (member : document ∈ documentsOn settings disk)
    {text : String} (converted : document.text = some text) :
    Readable settings disk document.path := by
  obtain ⟨path, listed, rfl⟩ := List.mem_map.1 member
  rw [convertSource_path]
  obtain ⟨⟨above, name, met⟩, -⟩ := exists_metAt_of_mem proper directory listed
  refine ⟨met.beside valid kept disk.start, ?_⟩
  obtain ⟨original, read⟩ := convertSource_text converted
  unfold sourceOn at read
  cases h : disk.readText (Path.join settings.source.root path) with
  | error fault => simp [h, Except.mapError] at read
  | ok text => exact Disk.readText_ok h

section Run

variable {settings : Settings} {before disk after : Disk} {place aside : Place} {path : OsText}

theorem kept_backupOn (watched : Watched settings place aside)
    (readable : Readable settings before path) (kept : Kept place aside before disk)
    (made : backupOn settings path disk = .ok after) :
    Kept place aside before after ∧
      (destination before.start (pathOf settings path) = place → after.tree.kindAt aside ≠ none) := by
  have beside := watched.aside_eq_iff readable.beside
  obtain ⟨rfl, there⟩ | ⟨content, free, held, written⟩ := backupOn_ok made
  · rw [kept.start] at there
    exact ⟨kept, fun here => beside.2 here ▸ there⟩
  · rw [kept.start] at free held
    by_cases here : destination before.start (pathOf settings path) = place
    · have same : aside = destination disk.start (backupPathOf settings path) :=
        kept.start ▸ (beside.2 here).symm
      rw [beside.2 here] at free
      rw [here] at held
      have made := Disk.kindAt_writeContent written
      rw [← same] at made
      exact ⟨kept.trans (Kept.of_backup written same watched.apart free held), fun _ => by simp [made]⟩
    · have away := Ne.symm (mt beside.1 here)
      have apart := (watched.ne_otherAside readable.beside).symm
      have step := Kept.of_elsewhere written (kept.start ▸ apart) (kept.start ▸ away)
      exact ⟨kept.trans step, fun same => absurd same here⟩

theorem kept_writeOn (watched : Watched settings place aside)
    (readable : Readable settings before path) (kept : Kept place aside before disk)
    (there : destination before.start (pathOf settings path) = place → disk.tree.kindAt aside ≠ none)
    (text : String) : Kept place aside before (writeOn settings path text disk).2 := by
  obtain ⟨tree, found⟩ := readable.found
  rcases disk_writeOn (makeRoom_of_present kept.start kept.present found) text with same | written
  · rw [same]
    exact kept
  · by_cases here : destination before.start (pathOf settings path) = place
    · exact kept.trans (Kept.of_report written watched.apart (kept.start ▸ here.symm) (there here))
    · have away := (watched.ne_aside readable.beside).symm
      exact kept.trans (Kept.of_elsewhere written (kept.start ▸ Ne.symm here) (kept.start ▸ away))

theorem kept_saveOn (watched : Watched settings place aside)
    (readable : Readable settings before path) (kept : Kept place aside before disk) (text : String) :
    Kept place aside before (saveOn settings path text disk).2 := by
  unfold saveOn keepOn
  rw [if_pos watched.kept]
  cases made : backupOn settings path disk with
  | error fault => exact kept
  | ok middle =>
    obtain ⟨kept', there⟩ := kept_backupOn watched readable kept made
    exact kept_writeOn watched readable kept' there text

theorem kept_settleOn {document : Converted} (watched : Watched settings place aside)
    (readable : ∀ text, document.text = some text → Readable settings before document.path)
    (kept : Kept place aside before disk) :
    Kept place aside before (settleOn settings document disk).2 := by
  rcases disk_settleOn document disk with same | ⟨text, converted, same⟩
  · rwa [same]
  · rw [same]
    exact kept_saveOn watched (readable text converted) kept text

theorem kept_settleAllOn {documents : List Converted} (watched : Watched settings place aside)
    (readable : ∀ document ∈ documents, ∀ text, document.text = some text →
      Readable settings before document.path) (kept : Kept place aside before disk) :
    Kept place aside before (settleAllOn settings documents disk).2 := by
  induction documents generalizing disk with
  | nil => exact kept
  | cons document rest ih =>
    have first := kept_settleOn watched (readable document List.mem_cons_self) kept
    exact ih (fun other member => readable other (List.mem_cons_of_mem _ member)) first

theorem kept_runBelow {monitor : Monitor} {startedAt : Report.Timestamp} {machine : Machine}
    (watched : Watched settings place aside) (proper : machine.disk.tree.isProper = true) :
    Kept place aside machine.disk (runBelow monitor settings startedAt machine).2.disk := by
  cases directory : machine.disk.isDirectory settings.source.root with
  | false =>
    rw [(run_missing directory).2]
    exact Kept.refl machine.disk
  | true =>
    obtain ⟨summary, -, settled⟩ := @run_on settings monitor startedAt machine directory
    have disk : (runBelow monitor settings startedAt machine).2.disk =
        (settleAllOn settings (documentsOn settings machine.disk) machine.disk).2 :=
      congrArg Prod.snd settled
    rw [disk]
    refine kept_settleAllOn watched (fun document member text => ?_) (Kept.refl machine.disk)
    exact readable_of_converted watched.valid watched.kept proper directory member

theorem ensures_printEntry {P : Disk → Prop} (entry : Report.Entry) :
    Ensures P (Program.Migration.printEntry entry : OnMachine Unit) fun _ disk => P disk := by
  have printed : Ensures P ((Program.Migration.entryLines entry).forM Program.Terminal.print :
      OnMachine Unit) fun _ disk => P disk := Ensures.forM fun _ _ => Ensures.print _
  unfold Program.Migration.printEntry
  dsimp only
  split
  · exact Ensures.bind (Ensures.note _ _) fun _ => printed
  · exact printed

theorem attempts_saveSummary {reportPath : OsText} {summary : Report.Summary}
    (elsewhere : destination before.start reportPath ≠ place ∧
      destination before.start reportPath ≠ aside) :
    Attempts (Kept place aside before)
      (Program.Migration.saveSummary reportPath summary :
        ExceptT Program.Migration.SummaryFault OnMachine Unit)
      (fun _ disk => Kept place aside before disk) (Kept place aside before) := by
  unfold Program.Migration.saveSummary
  cases summary.display with
  | none =>
    exact Attempts.bind (Q := fun _ _ => False) (Attempts.throw fun _ h => h) fun _ =>
      Attempts.lift fun _ impossible => impossible.elim
  | some text =>
    have writes : Attempts (Kept place aside before)
        (FileSystem.writeText reportPath text : ExceptT IoFault OnMachine Unit)
        (fun _ disk => Kept place aside before disk) (Kept place aside before) := by
      refine Attempts.tryChange.mono (fun _ h => h) ?_ fun _ h => h
      rintro - disk ⟨middle, kept, written⟩
      rw [← kept.start] at elsewhere
      exact kept.trans (Kept.of_elsewhere written elsewhere.1.symm elsewhere.2.symm)
    exact Attempts.bind (writes.adapt _) fun _ =>
      Attempts.lift (Ensures.bind (Ensures.note _ _) fun _ => Ensures.print _)

/-- The summary of a run is kept in neither of two places, if it is kept at all. -/
def SummaryElsewhere (settings : Settings) (start place aside : Place) : Prop :=
  ∀ path ∈ settings.output.reportPath, destination start path ≠ place ∧ destination start path ≠ aside

instance (settings : Settings) (start place aside : Place) :
    Decidable (SummaryElsewhere settings start place aside) :=
  inferInstanceAs (Decidable (∀ path ∈ settings.output.reportPath, _ ∧ _))

theorem ensures_finish {summary : Report.Summary}
    (elsewhere : SummaryElsewhere settings before.start place aside) :
    Ensures (Kept place aside before)
      (Program.Migration.finish settings.output.reportPath summary : OnMachine Nat)
      fun _ disk => Kept place aside before disk := by
  refine Ensures.bind (Ensures.bind (Ensures.forM fun entry _ => ensures_printEntry entry) fun _ =>
      Ensures.bind (Ensures.print _) fun _ => Ensures.print _) fun _ => ?_
  have complains : ∀ fault : Program.Migration.SummaryFault, Ensures (Kept place aside before)
      (do Program.Terminal.complain s!"Error: {fault.detail}"; return 1 : OnMachine Nat)
      fun _ disk => Kept place aside before disk := fun _ =>
    Ensures.bind (Ensures.complain _) fun _ => Ensures.pure fun _ h => h
  cases asked : settings.output.reportPath with
  | none =>
    refine Ensures.bind (Q := fun _ => Kept place aside before) (Ensures.pure fun _ h => h) ?_
    rintro (fault | _)
    · exact complains fault
    · exact Ensures.pure fun _ h => h
  | some path =>
    refine Ensures.bind (attempts_saveSummary (elsewhere path asked)) ?_
    rintro (fault | _)
    · exact (complains fault).mono (fun _ h => h.2 fault rfl) fun _ _ h => h
    · exact Ensures.pure fun _ h => h.1 () rfl

/-- A run of the program leaves a report and its backup as described, unless its summary is to be
kept in one of the two. -/
theorem ensures_migrate (watched : Watched settings place aside)
    (proper : before.tree.isProper = true)
    (elsewhere : SummaryElsewhere settings before.start place aside) :
    Ensures (· = before) (Program.Migration.migrate settings : OnMachine Nat)
      fun _ disk => Kept place aside before disk := by
  refine Ensures.bind (Ensures.forM fun _ _ => Ensures.note _ _) fun _ => ?_
  refine Ensures.bind Ensures.now fun startedAt => ?_
  have runs : ∀ monitor, Ensures (· = before) (runBelow monitor settings startedAt).run
      fun _ disk => Kept place aside before disk := by
    rintro monitor machine rfl
    exact kept_runBelow watched proper
  refine Ensures.bind (runs _) fun result => ?_
  cases result with
  | ok summary => exact ensures_finish elsewhere
  | error failure =>
    refine Ensures.bind (Q := fun _ => Kept place aside before) ?_ fun _ => Ensures.pure fun _ h => h
    refine Ensures.bind (Ensures.note _ _) fun _ => Ensures.bind (Ensures.note _ _) fun _ => ?_
    exact Ensures.bind (Ensures.complain _) fun _ => Ensures.complain _

theorem ensures_runWith (given : MigrationArguments) (watched : Watched settings place aside)
    (proper : before.tree.isProper = true)
    (elsewhere : SummaryElsewhere settings before.start place aside) :
    Ensures (· = before) (Program.Migration.runWith given settings : OnMachine Nat)
      fun _ disk => Kept place aside before disk := by
  unfold Program.Migration.runWith
  refine Ensures.bind (Ensures.openLog _) fun _ => Ensures.bind (Ensures.note _ _) fun _ => ?_
  have migrates := ensures_migrate watched proper elsewhere
  simp only [watched.valid]
  have verbosely : Ensures (· = before)
      (if given.verbose = true then do
          Journal.note .debug s!"CLI config: {given.display}"
          Program.Migration.migrate settings
        else Program.Migration.migrate settings : OnMachine Nat)
      fun _ disk => Kept place aside before disk := by
    split
    · exact Ensures.bind (Ensures.note _ _) fun _ => migrates
    · exact migrates
  cases given.config with
  | none => exact verbosely
  | some path => exact Ensures.bind (Ensures.note _ _) fun _ => verbosely

end Run

end ReportMigration.Migration
