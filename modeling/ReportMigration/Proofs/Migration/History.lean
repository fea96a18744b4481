import Mathlib.Logic.Relation
import ReportMigration.Proofs.Migration.Backup

/-!
# Backups through many runs

A report that is migrated again and again, and changed by others in between, keeps the backup that
the first of the runs made, if the name of that backup is not that of a report and no summary is
kept in its place.
-/

namespace ReportMigration.Migration

open Storage Report

def afterRun (given : MigrationArguments) (settings : Settings) (machine : Machine) : Machine :=
  ((Program.Migration.runWith given settings : OnMachine Nat) machine).2

/-- A migration with the settings, by itself or as the program runs it, which may keep its summary in
a file elsewhere. -/
inductive Run (settings : Settings) (place aside : Place) : Machine → Machine → Prop where
  | engine (monitor : Monitor) (startedAt : Timestamp) (machine : Machine) :
      Run settings place aside machine (runBelow monitor settings startedAt machine).2
  | program (given : MigrationArguments) {machine : Machine}
      (elsewhere : SummaryElsewhere settings machine.disk.start place aside) :
      Run settings place aside machine (afterRun given settings machine)

/-- What may become of a machine at a time: a run, or others change anything but what is at the place
of the backup. -/
inductive Step (settings : Settings) (place aside : Place) : Machine → Machine → Prop where
  | run {machine after : Machine} (ran : Run settings place aside machine after) :
      Step settings place aside machine after
  | edit {machine after : Machine} (proper : after.disk.tree.isProper = true)
      (untouched : after.disk.tree.kindAt aside = machine.disk.tree.kindAt aside) :
      Step settings place aside machine after

/-- Runs with the settings, with edits between them. -/
abbrev History (settings : Settings) (place aside : Place) : Machine → Machine → Prop :=
  Relation.ReflTransGen (Step settings place aside)

section

variable {settings : Settings} {place aside : Place} {first machine after later : Machine}

theorem Watched.kept_run (h : Watched settings place aside)
    (proper : machine.disk.tree.isProper = true) (ran : Run settings place aside machine after) :
    Kept place aside machine.disk after.disk := by
  cases ran with
  | program given elsewhere => exact ensures_runWith given h proper elsewhere machine rfl
  | engine => exact kept_runBelow h proper

theorem Watched.proper_step (h : Watched settings place aside)
    (proper : machine.disk.tree.isProper = true) (step : Step settings place aside machine after) :
    after.disk.tree.isProper = true := by
  cases step with
  | run ran => exact (h.kept_run proper ran).proper proper
  | edit stays => exact stays

theorem Watched.aside_step (h : Watched settings place aside)
    (proper : machine.disk.tree.isProper = true) (step : Step settings place aside machine after)
    (there : machine.disk.tree.kindAt aside ≠ none) :
    after.disk.tree.kindAt aside = machine.disk.tree.kindAt aside := by
  cases step with
  | run ran => exact (h.kept_run proper ran).stays there
  | edit _ untouched => exact untouched

theorem Watched.proper_history (h : Watched settings place aside)
    (proper : machine.disk.tree.isProper = true)
    (history : History settings place aside machine later) : later.disk.tree.isProper = true := by
  induction history with
  | refl => exact proper
  | tail _ step ih => exact h.proper_step ih step

theorem Watched.aside_history (h : Watched settings place aside)
    (proper : machine.disk.tree.isProper = true) (there : machine.disk.tree.kindAt aside ≠ none)
    (history : History settings place aside machine later) :
    later.disk.tree.kindAt aside = machine.disk.tree.kindAt aside := by
  induction history with
  | refl => rfl
  | tail past step ih =>
    exact (h.aside_step (h.proper_history proper past) step (ih.symm ▸ there)).trans ih

/-- A backup that was not there at first was made by a run from what the report held before. -/
theorem Watched.made (h : Watched settings place aside) (proper : first.disk.tree.isProper = true)
    (fresh : first.disk.tree.kindAt aside = none)
    (history : History settings place aside first machine) {kind : Kind}
    (there : machine.disk.tree.kindAt aside = some kind) :
    ∃ maker made content, History settings place aside first maker ∧
      Run settings place aside maker made ∧ maker.disk.tree.kindAt aside = none ∧
      maker.disk.tree.kindAt place = some (.file content) ∧
      made.disk.tree.kindAt aside = some (.file content) ∧
      History settings place aside made machine ∧ kind = .file content := by
  induction history with
  | refl => exact nomatch fresh.symm.trans there
  | @tail middle last past step ih =>
    have properly := h.proper_history proper past
    cases before : middle.disk.tree.kindAt aside with
    | some old =>
      have same := h.aside_step properly step (by simp [before])
      obtain ⟨maker, made, content, reached, ran, absent, held, copied, since, holds⟩ :=
        ih (before.trans (before.symm.trans (same.symm.trans there)))
      exact ⟨maker, made, content, reached, ran, absent, held, copied, since.tail step, holds⟩
    | none =>
      cases step with
      | edit _ untouched => exact nomatch (before.symm.trans untouched.symm).trans there
      | run ran =>
        obtain ⟨content, rfl, held⟩ := (h.kept_run properly ran).copied _ before there
        exact ⟨middle, last, content, past, ran, before, held, there, .refl, rfl⟩

end

/-- A report that a run comes upon and that has no backup at first. At each moment of a history a run
changes the report only if the backup is there afterwards, a backup that is there is the copy that a
run made of what the report held before that run, it stays what it is, and no run comes upon it as a
report. -/
theorem backup_kept {settings : Settings} {place aside : Place} {path : OsText}
    {found first machine : Machine} (valid : settings.validate = .ok ())
    (kept : settings.output.backup = true) (foundProper : found.disk.tree.isProper = true)
    (discovered : Discovers settings found path) (proper : first.disk.tree.isProper = true)
    (atPlace : place = destination first.disk.start (pathOf settings path))
    (atAside : aside = destination first.disk.start (backupPathOf settings path))
    (told : ToldApart settings place) (fresh : first.disk.tree.kindAt aside = none)
    (history : History settings place aside first machine) :
    (∀ after, Run settings place aside machine after →
      after.disk.tree.kindAt place ≠ machine.disk.tree.kindAt place →
        after.disk.tree.kindAt aside ≠ none) ∧
    (∀ kind, machine.disk.tree.kindAt aside = some kind →
      ∃ maker made content, History settings place aside first maker ∧
        Run settings place aside maker made ∧ maker.disk.tree.kindAt aside = none ∧
        maker.disk.tree.kindAt place = some (.file content) ∧
        made.disk.tree.kindAt aside = some (.file content) ∧
        History settings place aside made machine ∧ kind = .file content) ∧
    (∀ later, machine.disk.tree.kindAt aside ≠ none → History settings place aside machine later →
      later.disk.tree.kindAt aside = machine.disk.tree.kindAt aside) ∧
    (∀ other, Discovers settings machine other →
      destination machine.disk.start (pathOf settings other) ≠ aside) := by
  obtain ⟨above, name, met⟩ := discovered.exists_metAt foundProper
  have beside : Beside settings place aside := by
    rw [atPlace, atAside]
    exact met.beside valid kept _
  have watched : Watched settings place aside := ⟨valid, kept, beside, told⟩
  have properly := watched.proper_history proper history
  refine ⟨fun after ran => (watched.kept_run properly ran).guarded,
    fun kind => watched.made proper fresh history,
    fun later there => watched.aside_history properly there, fun other reached => ?_⟩
  obtain ⟨above', name', met'⟩ := reached.exists_metAt properly
  exact watched.ne_aside (met'.beside valid kept _)

def oneReport (name : OsText) (text : String) : Machine :=
  { disk := ⟨.directory [("root", .directory [(name, .file text.toUTF8)])], []⟩ }

def castReport : String := "<r><queryString>DATE(x)</queryString></r>"

/-- The report is migrated, written anew by others and migrated again. -/
theorem backup_kept_twice :
    let settings : Settings :=
      { source := { root := "root" }, output := { reportPath := some "out.json" } }
    let migrated := afterRun {} settings (oneReport "a.xml" castReport)
    let edited := { migrated with
      disk.tree := migrated.disk.tree.put ["root", "a.xml"] (.file "<r/>".toUTF8) }
    (afterRun {} settings edited).disk.tree.kindAt ["root", "a.xml.bak"] =
      some (.file castReport.toUTF8) := by
  intro settings migrated edited
  have backup : migrated.disk.tree.kindAt ["root", "a.xml.bak"] = some (.file castReport.toUTF8) := by
    decide +kernel
  have untouched : edited.disk.tree.kindAt ["root", "a.xml.bak"] =
      migrated.disk.tree.kindAt ["root", "a.xml.bak"] := by
    decide +kernel
  have discovered : Discovers settings (oneReport "a.xml" castReport) "a.xml" :=
    discovers_iff.2 (by decide +kernel)
  have elsewhere : SummaryElsewhere settings [] ["root", "a.xml"] ["root", "a.xml.bak"] := by
    decide +kernel
  have stays : migrated.disk.start = [] := by
    decide +kernel
  have told : ToldApart settings ["root", "a.xml"] := .inl ⟨["root"], "a.xml", rfl⟩
  have history : History settings ["root", "a.xml"] ["root", "a.xml.bak"]
      (oneReport "a.xml" castReport) migrated := .single (.run (.program {} elsewhere))
  have change : Step settings ["root", "a.xml"] ["root", "a.xml.bak"] migrated edited :=
    .edit (by decide +kernel) untouched
  have again : Run settings ["root", "a.xml"] ["root", "a.xml.bak"] edited
      (afterRun {} settings edited) := .program {} (stays.symm ▸ elsewhere)
  obtain ⟨-, -, outlasts, -⟩ := backup_kept (by decide +kernel) rfl (by decide +kernel) discovered
    (by decide +kernel) (by decide +kernel) (by decide +kernel) told (by decide +kernel) history
  rw [← backup]
  exact outlasts _ (by simp [backup]) (.tail (.single change) (.run again))

/-- The backup of a report whose name is no text is taken for a report where the suffix ends like the
name of one. A second run writes it, and what the report held at first is lost. -/
theorem backup_lost_to_second_run :
    let settings : Settings :=
      { source := { root := "root" }, output := { backupSuffix := ".orig.xml" } }
    let name : OsText := ⟨[0xff]⟩ ++ ".xml"
    let backup := name ++ settings.output.backupSuffix
    let first := oneReport name castReport
    let once := (runBelow ⟨false⟩ settings ⟨0, 0⟩ first).2
    let twice := (runBelow ⟨false⟩ settings ⟨0, 0⟩ once).2
    settings.validate = .ok () ∧ settings.output.backup = true ∧
      first.disk.tree.isProper = true ∧ Discovers settings first name ∧
      first.disk.tree.kindAt ["root", backup] = none ∧
      once.disk.tree.kindAt ["root", backup] = some (.file castReport.toUTF8) ∧
      Discovers settings once backup ∧
      twice.disk.tree.kindAt ["root", backup] ≠ some (.file castReport.toUTF8) := by
  refine ⟨by decide +kernel, rfl, by decide +kernel, discovers_iff.2 (by decide +kernel),
    by decide +kernel, by decide +kernel, discovers_iff.2 (by decide +kernel), by decide +kernel⟩

def firstByte : Kind → Option UInt8
  | .file content => content.data.toList.head?
  | .directory => none

/-- A summary that is kept where the backup is takes its place, although the report was found, had no
backup before and was written: what the report held is lost. -/
theorem backup_lost_to_summary :
    let settings : Settings :=
      { source := { root := "root" },
        output := { backupSuffix := ".json", reportPath := some "root/a.xml.json" } }
    let first := oneReport "a.xml" castReport
    let after := afterRun {} settings first
    settings.validate = .ok () ∧ settings.output.backup = true ∧
      Discovers settings first "a.xml" ∧
      first.disk.tree.kindAt ["root", "a.xml"] = some (.file castReport.toUTF8) ∧
      first.disk.tree.kindAt ["root", "a.xml.json"] = none ∧
      after.disk.tree.kindAt ["root", "a.xml"] ≠ some (.file castReport.toUTF8) ∧
      after.disk.tree.kindAt ["root", "a.xml.json"] ≠ none ∧
      after.disk.tree.kindAt ["root", "a.xml.json"] ≠ some (.file castReport.toUTF8) := by
  intro settings first after
  have summary : (after.disk.tree.kindAt ["root", "a.xml.json"]).map firstByte =
      some (some '\x7b'.toUInt8) := by
    decide +kernel
  refine ⟨by decide +kernel, rfl, discovers_iff.2 (by decide +kernel), by decide +kernel,
    by decide +kernel, by decide +kernel, ?_, ?_⟩
  · intro nothing
    rw [nothing] at summary
    exact nomatch summary
  · intro same
    rw [same] at summary
    exact absurd summary (by decide +kernel)

end ReportMigration.Migration
