import Mathlib
import ReportMigration.Proofs.Migration.Phases
import ReportMigration.Proofs.Storage.Names

/-!
# Files that are no reports

Of the files below the root that have a wanted extension, those whose names end with the suffix of
backups are passed over, if they are texts, whatever is in front of it.
-/

namespace ReportMigration.Migration

open Storage Text

variable {settings : Settings} {disk : Disk} {tree : Tree} {place other : Place} {name : OsText}
  {content : ByteArray}

theorem ofNames_inj (named : ∀ name ∈ place, isName name = true)
    (named' : ∀ name ∈ other, isName name = true) :
    Path.ofNames place = Path.ofNames other ↔ place = other := by
  refine ⟨fun same => ?_, fun same => same ▸ rfl⟩
  rw [← names_ofNames_eq named, same, names_ofNames_eq named']

theorem mem_reportsOn_iff (proper : disk.tree.isProper = true)
    (root : disk.find settings.source.root = .ok tree)
    (held : tree.kindAt place = some (.file content))
    (named : nameAt settings.source.root place = some name) :
    Path.ofNames place ∈ reportsOn settings disk ↔ isReport settings name = true := by
  have properly := Tree.isProper_at? proper (Disk.find_ok root).1
  have met : place ∈ tree.files := (Tree.mem_files_iff properly).2 ⟨content, held⟩
  simp only [reportsOn, Disk.walk, root, List.filterMap_map, List.mem_filterMap,
    Function.comp_apply, reportPath?_eq_some]
  constructor
  · rintro ⟨other, met', name', named', report, same⟩
    have names : ∀ {place}, place ∈ tree.files → ∀ name ∈ place, isName name = true := by
      intro place met
      obtain ⟨content, held⟩ := (Tree.mem_files_iff properly).1 met
      exact Tree.isName_of_kindAt properly (by simp [held])
    obtain rfl := (ofNames_inj (names met') (names met)).1 same
    obtain rfl := Option.some.inj (named.symm.trans named')
    exact report
  · exact fun report => ⟨place, met, name, named, report, rfl⟩

/-- A file below the root with a wanted extension is passed over exactly if its name ends with the
suffix of backups. When backups are kept, this is so only for a suffix that itself ends with a dot
and a wanted extension. -/
theorem omitted_iff {settings : Settings} {machine : Machine} {tree : Tree} {place : Place}
    {name : OsText} {content : ByteArray} (valid : settings.validate = .ok ())
    (proper : machine.disk.tree.isProper = true)
    (root : machine.disk.find settings.source.root = .ok tree)
    (held : tree.kindAt place = some (.file content))
    (named : nameAt settings.source.root place = some name)
    (wanted : hasReportExtension settings name = true) :
    (Path.ofNames place ∉ ((discover settings : OnMachine (List OsText)) machine).1 ↔
        settings.output.backupSuffix ≠ "" ∧
          ∃ stem : String, name = OsText.ofText (stem ++ settings.output.backupSuffix)) ∧
      (settings.output.backup = true →
        Path.ofNames place ∉ ((discover settings : OnMachine (List OsText)) machine).1 →
        EndsLikeReport settings settings.output.backupSuffix.toList) := by
  have omitted : Path.ofNames place ∉ ((discover settings : OnMachine (List OsText)) machine).1 ↔
      settings.output.backupSuffix ≠ "" ∧
        ∃ stem : String, name = OsText.ofText (stem ++ settings.output.backupSuffix) := by
    rw [discover_eq, mem_reportsOn_iff proper root held named, isReport, wanted, Bool.true_and,
      Bool.not_eq_true', Bool.not_eq_false, isBackup_iff]
  refine ⟨omitted, fun kept passed => ?_⟩
  obtain ⟨-, stem, rfl⟩ := omitted.1 passed
  obtain ⟨dotted, -⟩ := suffix_of_validate valid kept
  refine endsLikeReport_of_suffix wanted ?_ (List.mem_of_mem_head? dotted)
  rw [OsText.ofText_append]
  exact List.suffix_append _ _

def oneFile (name : OsText) : Machine :=
  { disk := ⟨.directory [("root", .directory [(name, .file "<r/>".toUTF8)])], []⟩ }

/-- A report named like a backup is passed over. -/
theorem omitted_named_like_backup :
    let settings : Settings :=
      { source := { root := "root" }, output := { backupSuffix := ".old.xml" } }
    OsText.ofText "b.old.xml" ∉ ((discover settings : OnMachine (List OsText)) (oneFile "b.old.xml")).1 ∧
      EndsLikeReport settings ".old.xml".toList := by
  intro settings
  obtain ⟨omitted, only⟩ := @omitted_iff settings (oneFile "b.old.xml")
    (.directory [("b.old.xml", .file "<r/>".toUTF8)]) ["b.old.xml"] "b.old.xml" "<r/>".toUTF8
    (by decide +kernel) (by decide +kernel) (by cbv) rfl rfl (by decide +kernel)
  have passed := omitted.2 ⟨by decide, "b", by decide⟩
  exact ⟨passed, only rfl passed⟩

/-- With the extension of reports for the suffix of backups none of them is met, though it cannot be
the backup of another one. -/
theorem omitted_without_original :
    let settings : Settings :=
      { source := { root := "root" }, output := { backupSuffix := ".xml" } }
    settings.validate = .ok () ∧ hasReportExtension settings "a.xml" = true ∧
      (oneFile "a.xml").disk.tree.kindAt ["root", "a.xml"] = some (.file "<r/>".toUTF8) ∧
      OsText.ofText "a.xml" ∉ ((discover settings : OnMachine (List OsText)) (oneFile "a.xml")).1 ∧
      ¬ ∃ original : String, "a.xml" = original ++ settings.output.backupSuffix ∧
        hasReportExtension settings original = true := by
  intro settings
  refine ⟨by decide +kernel, by decide +kernel, rfl, by decide +kernel, ?_⟩
  rintro ⟨original, spelt, report⟩
  have letters : original.toList ++ ".xml".toList = ['a'] ++ ".xml".toList := by
    rw [← String.toList_append]
    exact congrArg String.toList spelt.symm
  obtain rfl : original = "a" := String.toList_inj.1 (List.append_cancel_right letters)
  exact absurd report (by decide +kernel)

end ReportMigration.Migration
