import Mathlib
import ReportMigration.Proofs.Migration.Locality
import ReportMigration.Proofs.Storage.Agreement
import ReportMigration.Proofs.Storage.Names

/-!
# One report among others

What one report holds has nothing to do with what becomes of the others. From two disks that differ
in one report only, a run gives the same entries for all others and leaves the same disk apart from
that report and its backup.
-/

namespace ReportMigration.Migration

open Storage Report

/-- Two disks that differ in nothing but what the file at a place holds. -/
structure DifferAt (place : Place) (disk disk' : Disk) : Prop where
  start : disk'.start = disk.start
  proper : disk.tree.isProper = true
  proper' : disk'.tree.isProper = true
  elsewhere : AgreeOn (· ≠ place) disk disk'
  file : ∃ content, disk.tree.kindAt place = some (.file content)
  file' : ∃ content, disk'.tree.kindAt place = some (.file content)

variable {settings : Settings} {disk disk' before before' : Disk} {place : Place}
  {path other : OsText}

theorem DifferAt.sameShape (h : DifferAt place disk disk') : SameShape disk.tree disk'.tree := by
  intro somewhere
  by_cases here : somewhere = place
  · rw [here, exists_file_iff.1 h.file, exists_file_iff.1 h.file']
  · have same := h.elsewhere somewhere here
    revert same
    rw [Tree.kindAt, Tree.kindAt]
    rcases disk.tree.at? somewhere with _ | ⟨_ | _⟩ <;>
      rcases disk'.tree.at? somewhere with _ | ⟨_ | _⟩ <;>
        simp [Tree.kind, Tree.isDirectory]

theorem destination_ne (proper : disk.tree.isProper = true)
    (directory : disk.isDirectory settings.source.root = true)
    (listed : path ∈ reportsOn settings disk) (listed' : other ∈ reportsOn settings disk)
    (apart : other ≠ path) :
    destination disk.start (pathOf settings other) ≠
      destination disk.start (pathOf settings path) := by
  obtain ⟨⟨above, name, met⟩, -⟩ := exists_metAt_of_mem proper directory listed
  obtain ⟨⟨above', name', met'⟩, -⟩ := exists_metAt_of_mem proper directory listed'
  rw [pathOf, pathOf, met.destination_eq, met'.destination_eq, Ne, List.append_cancel_left_eq]
  intro same
  exact apart (met'.path.trans (same ▸ met.path.symm))

def documentAt (settings : Settings) (disk : Disk) (path : OsText) : Converted :=
  (convertSource settings (sourceOn settings disk path)).1

/-- Only a report that could be read is given a new text, so it can be saved as far as its way is
concerned. -/
theorem savable_of_text (valid : settings.validate = .ok ()) (proper : disk.tree.isProper = true)
    (directory : disk.isDirectory settings.source.root = true)
    (listed : path ∈ reportsOn settings disk) {text : String}
    (converted : (documentAt settings disk path).text = some text) :
    Savable settings path disk := by
  obtain ⟨⟨above, name, met⟩, held⟩ := exists_metAt_of_mem proper directory listed
  obtain ⟨lead, leads, joined⟩ := met.exists_lead
  obtain ⟨-, -, -, plain⟩ := isName_iff.1 met.isName
  have spelt : pathOf settings path = ⟨lead ++ name.bytes⟩ := by
    simpa [pathOf] using joined ⟨[]⟩
  refine ⟨⟨?_, held⟩, ?_, fun kept => ?_⟩
  · obtain ⟨original, read⟩ := convertSource_text converted
    unfold sourceOn at read
    cases reads : disk.readText (Path.join settings.source.root path) with
    | error fault => simp [reads, Except.mapError] at read
    | ok content =>
      obtain ⟨found, there⟩ := Disk.readText_ok reads
      exact (Disk.find_ok there).2
  · rw [spelt]
    exact Path.endsWithSlash_append plain (isProper_of_isName met.isName).1
  · have named := met.isName_backup valid kept
    rw [spelt, backupPathOf, joined]
    exact Path.neighbours_append leads plain (isProper_of_isName met.isName)
      (isName_iff.1 named).2.2.2 (isProper_of_isName named)

theorem documentAt_path (settings : Settings) (disk : Disk) (path : OsText) :
    (documentAt settings disk path).path = path :=
  convertSource_path settings _

theorem settleOn_path (settings : Settings) (document : Converted) (disk : Disk) :
    (settleOn settings document disk).1.path = document.path := by
  unfold settleOn
  cases document.outcome with
  | changed fragments =>
    cases textToWrite settings document with
    | none => rfl
    | some text =>
      dsimp only
      unfold savedEntry
      split <;> rfl
  | _ => rfl

/-- Two entries for one path, which are the same unless it is the path of the report that differs. -/
def SameBut (path : OsText) (entry entry' : Entry) : Prop :=
  entry'.path = entry.path ∧ (entry.path ≠ path → entry' = entry)

/-- Two disks have come so far from two others, and agree but for one report and its backup. -/
structure SideBySide (settings : Settings) (path : OsText) (before before' disk disk' : Disk) :
    Prop where
  grown : Grown before disk
  grown' : Grown before' disk'
  agree : AgreeOn (¬ Changes settings before path ·) disk disk'

theorem DifferAt.changes (h : DifferAt (destination disk.start (pathOf settings path)) disk disk')
    (changed : Changes settings disk' path place) : Changes settings disk path place := by
  unfold Changes at changed ⊢
  rw [h.start] at changed
  obtain here | ⟨kept, here, free⟩ := changed
  · exact .inl here
  · by_cases own : place = destination disk.start (pathOf settings path)
    · exact .inl own
    · exact .inr ⟨kept, here, (h.elsewhere place own).symm.trans free⟩

section

variable (valid : settings.validate = .ok ())
  (directory : before.isDirectory settings.source.root = true)
  (listed : path ∈ reportsOn settings before)
  (differs : DifferAt (destination before.start (pathOf settings path)) before before')

include differs

theorem DifferAt.isDirectory (somewhere : OsText) :
    before'.isDirectory somewhere = before.isDirectory somewhere :=
  isDirectory_of_sameShape differs.sameShape differs.start somewhere

theorem DifferAt.reportsOn (settings : Settings) :
    reportsOn settings before' = reportsOn settings before := by
  unfold Migration.reportsOn
  rw [walk_of_sameShape differs.proper differs.proper' differs.sameShape differs.start]

include directory listed

theorem documentAt_of_ne (member : other ∈ reportsOn settings before) (apart : other ≠ path) :
    documentAt settings before' other = documentAt settings before other := by
  have away := destination_ne differs.proper directory listed member apart
  have read : before'.readText (pathOf settings other) = before.readText (pathOf settings other) :=
    readText_of_sameShape differs.sameShape differs.start (differs.elsewhere _ away)
  unfold documentAt sourceOn
  rw [← pathOf, read]

include valid

/-- Another report is no place that saving the one changes, and where its backup is to be is none
either, or is that report. -/
theorem SideBySide.sameOwn (member : other ∈ reportsOn settings before) (apart : other ≠ path)
    (h : SideBySide settings path before before' disk disk') :
    SameOwn settings (¬ Changes settings before path ·) other disk disk' := by
  have away := destination_ne differs.proper directory listed member apart
  obtain ⟨⟨above, name, met⟩, -⟩ := exists_metAt_of_mem differs.proper directory listed
  obtain ⟨⟨above', name', met'⟩, content, held⟩ :=
    exists_metAt_of_mem differs.proper directory member
  refine ⟨?_, fun kept => ?_⟩
  · rw [h.grown.start]
    rintro (here | ⟨-, -, free⟩)
    · exact away here
    · exact nomatch free.symm.trans held
  · rw [h.grown.start, or_iff_not_imp_left, not_not]
    rintro (here | ⟨-, here, -⟩)
    · rw [here]
      obtain ⟨content, there⟩ := differs.file
      obtain ⟨content', there'⟩ := differs.file'
      exact ⟨h.grown.present _ (by simp [there]), h.grown'.present _ (by simp [there'])⟩
    · exact absurd (((met.beside valid kept _).aside_eq_iff (met'.beside valid kept _)).1 here) away

theorem SideBySide.settle (member : other ∈ reportsOn settings before)
    (h : SideBySide settings path before before' disk disk') :
    let left := settleOn settings (documentAt settings before other) disk
    let right := settleOn settings (documentAt settings before' other) disk'
    SameBut path left.1 right.1 ∧ SideBySide settings path before before' left.2 right.2 := by
  intro left right
  have directory' := (differs.isDirectory settings.source.root).trans directory
  have member' : other ∈ reportsOn settings before' := (differs.reportsOn settings).symm ▸ member
  have savable : ∀ text, (documentAt settings before other).text = some text →
      Savable settings (documentAt settings before other).path disk := fun text converted => by
    rw [documentAt_path]
    exact (savable_of_text valid differs.proper directory member converted).grown h.grown
  have savable' : ∀ text, (documentAt settings before' other).text = some text →
      Savable settings (documentAt settings before' other).path disk' := fun text converted => by
    rw [documentAt_path]
    exact (savable_of_text valid differs.proper' directory' member' converted).grown h.grown'
  have same_path : right.1.path = left.1.path := by
    rw [settleOn_path, settleOn_path, documentAt_path, documentAt_path]
  obtain ⟨grows, frame⟩ := settleOn_frame savable
  obtain ⟨grows', frame'⟩ := settleOn_frame savable'
  have start : disk.start = before.start := h.grown.start
  have start' : disk'.start = disk.start := h.grown'.start.trans (differs.start.trans start.symm)
  by_cases same : other = path
  · -- what differs is confined to the places of the report itself
    subst same
    rw [documentAt_path] at frame frame'
    replace frame := frame.mono fun _ => mt (Changes.of_grown h.grown)
    replace frame' := frame'.mono fun _ => mt fun changes =>
      differs.changes (Changes.of_grown h.grown' changes)
    refine ⟨⟨same_path, fun apart => ?_⟩, h.grown.trans grows, h.grown'.trans grows',
      (frame.symm.trans h.agree).trans frame'⟩
    exact absurd ((settleOn_path _ _ _).trans (documentAt_path _ _ _)) apart
  · have documents := documentAt_of_ne directory listed differs member same
    have own : SameOwn settings (¬ Changes settings before path ·)
        (documentAt settings before other).path disk disk' := by
      rw [documentAt_path]
      exact h.sameOwn valid directory listed differs member same
    rw [documents] at savable'
    obtain ⟨entries, agree⟩ := settleOn_congr start' h.agree own savable savable'
    have ends : right = settleOn settings (documentAt settings before other) disk' :=
      congrArg (settleOn settings · disk') documents
    rw [← ends] at entries agree
    exact ⟨⟨same_path, fun _ => entries⟩, h.grown.trans grows, h.grown'.trans grows', agree⟩

/-- Saving reports one after the other on both disks keeps them side by side. -/
theorem SideBySide.settleAll {paths : List OsText}
    (members : ∀ other ∈ paths, other ∈ reportsOn settings before)
    (h : SideBySide settings path before before' disk disk') :
    let left := settleAllOn settings (paths.map (documentAt settings before)) disk
    let right := settleAllOn settings (paths.map (documentAt settings before')) disk'
    List.Forall₂ (SameBut path) left.1 right.1 ∧
      SideBySide settings path before before' left.2 right.2 := by
  induction paths generalizing disk disk' with
  | nil => exact ⟨.nil, h⟩
  | cons first rest ih =>
    obtain ⟨member, members⟩ := List.forall_mem_cons.1 members
    obtain ⟨entry, next⟩ := h.settle valid directory listed differs member
    obtain ⟨entries, last⟩ := ih members next
    exact ⟨.cons entry entries, last⟩

end

/-- From two disks that differ in what one report holds, runs succeed and come to the same for every
other one: the entries are for the same paths in the same order, those for the others are the same,
and the disks behind the runs agree but for the report and its backup. -/
theorem runs_agree_elsewhere {settings : Settings} {path : OsText} {machine machine' : Machine}
    (monitor monitor' : Monitor) (startedAt startedAt' : Timestamp)
    (valid : settings.validate = .ok ()) (discovered : Discovers settings machine path)
    (differs : DifferAt (destination machine.disk.start (pathOf settings path)) machine.disk
      machine'.disk) :
    let run := runBelow monitor settings startedAt machine
    let run' := runBelow monitor' settings startedAt' machine'
    ∃ summary summary' : Summary, run.1 = .ok summary ∧ run'.1 = .ok summary' ∧
      List.Forall₂ (SameBut path) summary.entries summary'.entries ∧
      AgreeOn (¬ IsPlaceOf settings machine.disk.start path ·) run.2.disk run'.2.disk := by
  intro run run'
  obtain ⟨directory, listed⟩ := discovers_iff.1 discovered
  have directory' := (differs.isDirectory settings.source.root).trans directory
  obtain ⟨summary, ends, effect⟩ := @run_on settings monitor startedAt machine directory
  obtain ⟨summary', ends', effect'⟩ :=
    @run_on settings monitor' startedAt' machine' directory'
  have apart : SideBySide settings path machine.disk machine'.disk machine.disk machine'.disk :=
    ⟨.refl _, .refl _, differs.elsewhere.mono fun place away here => away (.inl here)⟩
  obtain ⟨entries, last⟩ := apart.settleAll valid directory listed differs fun _ member => member
  have documents' : documentsOn settings machine'.disk =
      (reportsOn settings machine.disk).map (documentAt settings machine'.disk) := by
    rw [← differs.reportsOn]
    rfl
  rw [documents'] at effect'
  refine ⟨summary, summary', ends, ends', ?_, ?_⟩
  · rw [(Prod.mk.inj effect).1, (Prod.mk.inj effect').1]
    exact entries
  · rw [(Prod.mk.inj effect).2, (Prod.mk.inj effect').2]
    exact last.agree.mono fun _ => mt Changes.isPlaceOf

def twoReports (content : ByteArray) : Machine :=
  { disk := ⟨.directory [("root", .directory [("a.xml", .file content),
      ("b.xml", .file "<r><queryString>DATE(x)</queryString></r>".toUTF8)])], []⟩ }

/-- Beside a report that is no text the other one is migrated as beside a sound one. -/
theorem runs_agree_beside_unreadable :
    let settings : Settings := { source := { root := "root" } }
    let sound := twoReports "<r/>".toUTF8
    let unreadable := twoReports ⟨#[0xff]⟩
    String.fromUTF8? ⟨#[0xff]⟩ = none ∧
      (runBelow {} settings ⟨0, 0⟩ unreadable).2.disk.tree.kindAt ["root", "b.xml"] =
        (runBelow {} settings ⟨0, 0⟩ sound).2.disk.tree.kindAt ["root", "b.xml"] ∧
      (runBelow {} settings ⟨0, 0⟩ sound).2.disk.tree.kindAt ["root", "b.xml"] =
        some (.file "<r><queryString>(x)::date</queryString></r>".toUTF8) := by
  intro settings sound unreadable
  refine ⟨by decide +kernel, ?_, by decide +kernel⟩
  have place : destination sound.disk.start (pathOf settings "a.xml") = ["root", "a.xml"] := by
    decide +kernel
  have backup : destination sound.disk.start (backupPathOf settings "a.xml") =
      ["root", "a.xml.bak"] := by
    decide +kernel
  have replaced : unreadable.disk.tree =
      sound.disk.tree.put ["root", "a.xml"] (.file ⟨#[0xff]⟩) := rfl
  have discovered : Discovers settings sound "a.xml" := discovers_iff.2 (by decide +kernel)
  have differs : DifferAt (destination sound.disk.start (pathOf settings "a.xml")) sound.disk
      unreadable.disk := by
    rw [place]
    refine ⟨rfl, by decide +kernel, by decide +kernel, fun elsewhere away => ?_, ⟨_, rfl⟩, ⟨_, rfl⟩⟩
    rw [replaced]
    exact Tree.kindAt_put_of_ne away (by decide +kernel)
  obtain ⟨-, -, -, -, -, agree⟩ :=
    runs_agree_elsewhere {} {} ⟨0, 0⟩ ⟨0, 0⟩ (by decide +kernel) discovered differs
  refine agree _ ?_
  unfold IsPlaceOf
  rw [place, backup]
  decide +kernel

end ReportMigration.Migration
