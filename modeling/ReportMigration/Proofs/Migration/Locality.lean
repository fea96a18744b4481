import Mathlib
import ReportMigration.Proofs.Migration.Effects
import ReportMigration.Proofs.Storage.Agreement

/-!
# What saving a report has to do with the rest of the disk

Saving a report changes what the report holds, and makes its backup if there is none. What comes of
it depends on the directories, which stay, on what the report holds, and on what is at the place of
its backup or that something is.
-/

namespace ReportMigration.Migration

open Storage Report

/-- A report that is there, with its backup beside it if backups are kept. -/
structure Savable (settings : Settings) (path : OsText) (disk : Disk) : Prop where
  leads : LeadsToFile disk (pathOf settings path)
  flat : Path.endsWithSlash (pathOf settings path) = false
  beside : settings.output.backup = true →
    Path.Neighbours (pathOf settings path) (backupPathOf settings path)

/-- The places of a report and of its backup, if backups are kept. -/
def IsPlaceOf (settings : Settings) (start : Place) (path : OsText) (place : Place) : Prop :=
  place = destination start (pathOf settings path) ∨
    settings.output.backup = true ∧ place = destination start (backupPathOf settings path)

/-- The places that saving a report may change: that of the report, and that of its backup if nothing
is there. -/
def Changes (settings : Settings) (disk : Disk) (path : OsText) (place : Place) : Prop :=
  place = destination disk.start (pathOf settings path) ∨
    settings.output.backup = true ∧ place = destination disk.start (backupPathOf settings path) ∧
      disk.tree.kindAt place = none

variable {settings : Settings} {path : OsText} {text : String} {disk disk' after : Disk}
  {inside : Place → Prop}

theorem Changes.isPlaceOf {place : Place} (h : Changes settings disk path place) :
    IsPlaceOf settings disk.start path place :=
  h.imp_right fun aside => ⟨aside.1, aside.2.1⟩

theorem Changes.of_grown {place : Place} (grown : Grown disk after)
    (h : Changes settings after path place) : Changes settings disk path place := by
  unfold Changes at h ⊢
  rw [grown.start] at h
  refine h.imp_right fun ⟨kept, here, free⟩ => ⟨kept, here, ?_⟩
  by_contra there
  exact grown.present _ there free

theorem Savable.grown (h : Savable settings path disk) (grown : Grown disk after) :
    Savable settings path after :=
  ⟨h.leads.grown h.flat grown, h.flat, h.beside⟩

theorem makeRoom_of_leads (leads : LeadsToFile disk path) : (makeRoom path disk).2 = disk := by
  obtain ⟨found, there⟩ := leads.find
  exact makeRoom_of_present rfl (fun _ there => there) there

theorem makeRoom_congr (leads : LeadsToFile disk path) (leads' : LeadsToFile disk' path)
    (start : disk'.start = disk.start) : (makeRoom path disk').1 = (makeRoom path disk).1 := by
  unfold makeRoom
  cases above : Path.parent path with
  | none => rfl
  | some directory => exact createDirectories_congr leads leads' start above

theorem backupOn_frame (kept : settings.output.backup = true)
    (h : backupOn settings path disk = .ok after) :
    Grown disk after ∧ AgreeOn (¬ Changes settings disk path ·) disk after := by
  obtain ⟨rfl, -⟩ | ⟨content, free, -, written⟩ := backupOn_ok h
  · exact ⟨Grown.refl after, AgreeOn.refl _ after⟩
  · refine ⟨grown_writeContent written, (agreeOn_writeContent written).mono ?_⟩
    rintro place away rfl
    exact away (.inr ⟨kept, rfl, free⟩)

theorem writeOn_frame (leads : LeadsToFile disk (pathOf settings path)) (text : String) :
    Grown disk (writeOn settings path text disk).2 ∧
      AgreeOn (· ≠ destination disk.start (pathOf settings path)) disk
        (writeOn settings path text disk).2 := by
  rcases disk_writeOn (makeRoom_of_leads leads) text with same | written
  · rw [same]
    exact ⟨Grown.refl disk, AgreeOn.refl _ disk⟩
  · exact ⟨grown_writeContent written, agreeOn_writeContent written⟩

theorem keepOn_frame {backup : Option OsText} (h : keepOn settings path disk = .ok (backup, after)) :
    Grown disk after ∧ AgreeOn (¬ Changes settings disk path ·) disk after := by
  unfold keepOn at h
  split at h
  · next kept =>
    cases made : backupOn settings path disk with
    | error fault =>
      rw [made] at h
      cases h
    | ok kept' =>
      rw [made] at h
      obtain ⟨-, rfl⟩ := Prod.mk.inj (Except.ok.inj h)
      exact backupOn_frame kept made
  · obtain ⟨-, rfl⟩ := Prod.mk.inj (Except.ok.inj h)
    exact ⟨Grown.refl disk, AgreeOn.refl _ disk⟩

theorem saveOn_frame (savable : Savable settings path disk) (text : String) :
    Grown disk (saveOn settings path text disk).2 ∧
      AgreeOn (¬ Changes settings disk path ·) disk (saveOn settings path text disk).2 := by
  rw [saveOn]
  cases kept : keepOn settings path disk with
  | error fault => exact ⟨Grown.refl disk, AgreeOn.refl _ disk⟩
  | ok both =>
    obtain ⟨backup, middle⟩ := both
    obtain ⟨grown, agree⟩ := keepOn_frame kept
    obtain ⟨grown', agree'⟩ := writeOn_frame (savable.grown grown).leads text
    rw [grown.start] at agree'
    exact ⟨grown.trans grown', agree.trans (agree'.mono fun place away same => away (.inl same))⟩

/-- Two disks hold the same report, and the same at the place of its backup or something on both. -/
structure SameOwn (settings : Settings) (inside : Place → Prop) (path : OsText)
    (disk disk' : Disk) : Prop where
  place : inside (destination disk.start (pathOf settings path))
  aside : settings.output.backup = true → inside (destination disk.start (backupPathOf settings path)) ∨
    disk.tree.kindAt (destination disk.start (backupPathOf settings path)) ≠ none ∧
      disk'.tree.kindAt (destination disk.start (backupPathOf settings path)) ≠ none

theorem SameOwn.grown {after' : Disk} (own : SameOwn settings inside path disk disk')
    (grown : Grown disk after) (grown' : Grown disk' after') :
    SameOwn settings inside path after after' := by
  refine ⟨grown.start ▸ own.place, fun kept => ?_⟩
  rw [grown.start]
  exact (own.aside kept).imp_right fun there =>
    ⟨grown.present _ there.1, grown'.present _ there.2⟩

section

variable (start : disk'.start = disk.start) (agree : AgreeOn inside disk disk')
  (own : SameOwn settings inside path disk disk')
include start agree own

theorem backupOn_congr (savable : Savable settings path disk) (savable' : Savable settings path disk')
    (kept : settings.output.backup = true) :
    Alike inside (backupOn settings path disk) (backupOn settings path disk') := by
  have located' := savable'.leads.1
  rw [start] at located'
  have beside := savable.beside kept
  have way := Disk.locate_neighbour beside start savable.leads.1 located'
  have wayFile : ∀ disk : Disk, disk.locateFile (backupPathOf settings path) =
      disk.locate (backupPathOf settings path) := Disk.locateFile_of_flat beside.flat'
  have present : disk'.isPresent (backupPathOf settings path) =
      disk.isPresent (backupPathOf settings path) := by
    rw [Disk.isPresent_eq, Disk.isPresent_eq, way]
    cases located : disk.locate (backupPathOf settings path) with
    | error fault => rfl
    | ok found =>
      obtain rfl := Disk.destination_of_locate located
      dsimp only
      rcases own.aside kept with same | ⟨there, there'⟩
      · rw [agree _ same]
      · rw [Option.isSome_iff_ne_none.2 there, Option.isSome_iff_ne_none.2 there']
  have copied : disk.isPresent (backupPathOf settings path) = .ok false →
      Alike inside (disk.copyFile (pathOf settings path) (backupPathOf settings path))
        (disk'.copyFile (pathOf settings path) (backupPathOf settings path)) := by
    intro absent
    obtain ⟨located, content, held⟩ := savable.leads
    rw [Disk.copyFile_eq, Disk.copyFile_eq, located, located']
    dsimp only
    rw [agree _ own.place, held]
    rcases own.aside kept with same | ⟨there, -⟩
    · refine alike_writeContent start ?_ agree same content
      rw [wayFile, wayFile, way]
    · -- nothing is found where something is only if the way to it is refused
      dsimp only
      rw [Disk.writeContent_eq, Disk.writeContent_eq, wayFile, wayFile, way]
      rw [Disk.isPresent_eq] at absent
      cases found : disk.locate (backupPathOf settings path) with
      | error fault => exact .error fault
      | ok place =>
        obtain rfl := Disk.destination_of_locate found
        rw [found] at absent
        exact absurd (Except.ok.inj absent) (by simpa using there)
  unfold backupOn
  rw [present]
  cases absent : disk.isPresent (backupPathOf settings path) with
  | error fault => exact .error fault
  | ok there =>
    cases there with
    | true => exact .ok agree
    | false => exact copied absent

/-- The same backup is kept, or fails to be, on two disks that are the same at the places of a
report. -/
theorem keepOn_congr (savable : Savable settings path disk)
    (savable' : Savable settings path disk') :
    (∃ fault, keepOn settings path disk = .error fault ∧ keepOn settings path disk' = .error fault) ∨
      ∃ backup kept kept', keepOn settings path disk = .ok (backup, kept) ∧
        keepOn settings path disk' = .ok (backup, kept') ∧ AgreeOn inside kept kept' := by
  unfold keepOn
  split
  · next kept =>
    have backs := backupOn_congr start agree own savable savable' kept
    revert backs
    generalize backupOn settings path disk = result
    generalize backupOn settings path disk' = result'
    rintro (same | fault)
    · exact .inr ⟨_, _, _, rfl, rfl, same⟩
    · exact .inl ⟨fault, rfl, rfl⟩
  · exact .inr ⟨_, _, _, rfl, rfl, agree⟩

theorem writeOn_congr (savable : Savable settings path disk) (savable' : Savable settings path disk')
    (text : String) :
    (writeOn settings path text disk').1 = (writeOn settings path text disk).1 ∧
      AgreeOn inside (writeOn settings path text disk).2 (writeOn settings path text disk').2 := by
  have located' := savable'.leads.1
  rw [start] at located'
  have way : disk'.locateFile (pathOf settings path) = disk.locateFile (pathOf settings path) := by
    rw [Disk.locateFile_of_flat savable.flat, Disk.locateFile_of_flat savable.flat, located',
      savable.leads.1]
  rw [writeOn_of_room (makeRoom_of_leads savable.leads),
    writeOn_of_room (makeRoom_of_leads savable'.leads),
    makeRoom_congr savable.leads savable'.leads start]
  cases (makeRoom (pathOf settings path) disk).1 with
  | error fault => exact ⟨rfl, agree⟩
  | ok _ =>
    dsimp only
    have writes := alike_writeContent start way agree own.place text.toUTF8
    revert writes
    generalize disk.writeContent (pathOf settings path) text.toUTF8 = result
    generalize disk'.writeContent (pathOf settings path) text.toUTF8 = result'
    rintro (same | fault)
    · exact ⟨rfl, same⟩
    · exact ⟨rfl, agree⟩

/-- Saving a report comes to the same on two disks that are the same at its places. -/
theorem saveOn_congr (savable : Savable settings path disk) (savable' : Savable settings path disk')
    (text : String) :
    (saveOn settings path text disk').1 = (saveOn settings path text disk).1 ∧
      AgreeOn inside (saveOn settings path text disk).2 (saveOn settings path text disk').2 := by
  rw [saveOn, saveOn]
  rcases keepOn_congr start agree own savable savable' with
    ⟨fault, kept, kept'⟩ | ⟨backup, middle, middle', kept, kept', same⟩
  · rw [kept, kept']
    exact ⟨rfl, agree⟩
  · have grown := (keepOn_frame kept).1
    have grown' := (keepOn_frame kept').1
    have starts : middle'.start = middle.start := by rw [grown'.start, grown.start, start]
    obtain ⟨written, agrees⟩ := writeOn_congr starts same (own.grown grown grown')
      (savable.grown grown) (savable'.grown grown') text
    rw [kept, kept']
    dsimp only
    rw [written]
    exact ⟨rfl, agrees⟩

end

variable {document : Converted}

theorem settleOn_frame
    (savable : ∀ text, document.text = some text → Savable settings document.path disk) :
    Grown disk (settleOn settings document disk).2 ∧
      AgreeOn (¬ Changes settings disk document.path ·) disk (settleOn settings document disk).2 := by
  rcases disk_settleOn document disk with same | ⟨text, converted, same⟩
  · rw [same]
    exact ⟨Grown.refl disk, AgreeOn.refl _ disk⟩
  · rw [same]
    exact saveOn_frame (savable text converted) text

/-- Bringing a document to its end comes to the same on two disks that are the same at its places. -/
theorem settleOn_congr (start : disk'.start = disk.start) (agree : AgreeOn inside disk disk')
    (own : SameOwn settings inside document.path disk disk')
    (savable : ∀ text, document.text = some text → Savable settings document.path disk)
    (savable' : ∀ text, document.text = some text → Savable settings document.path disk') :
    (settleOn settings document disk').1 = (settleOn settings document disk).1 ∧
      AgreeOn inside (settleOn settings document disk).2 (settleOn settings document disk').2 := by
  unfold settleOn
  cases document.outcome with
  | unchanged => exact ⟨rfl, agree⟩
  | failed reason => exact ⟨rfl, agree⟩
  | changed fragments =>
    cases written : textToWrite settings document with
    | none => exact ⟨rfl, agree⟩
    | some text =>
      have converted := text_of_textToWrite written
      obtain ⟨saving, agrees⟩ :=
        saveOn_congr start agree own (savable text converted) (savable' text converted) text
      dsimp only
      rw [saving]
      exact ⟨rfl, agrees⟩

end ReportMigration.Migration
