import Mathlib
import ReportMigration.Proofs.Migration.Isolation
import ReportMigration.Proofs.Migration.Omission
import ReportMigration.Proofs.Storage.Names

/-!
# What is discovered

Below a directory the reports are all regular files, at any depth, whose names are those of reports.
Each is discovered once, in the order of the names that lead to it, and its path leads from the
directory to it.
-/

namespace ReportMigration.Migration

open Storage Text

variable {settings : Settings} {name : OsText} {place : Place} {regular : Place → Bool}
  {found : List Found}

/-- A name has a wanted extension behind its last dot and something in front of that dot. Upper and
lower case do not matter in the extension. -/
def NamedLikeReport (settings : Settings) (name : OsText) : Prop :=
  ∃ (stem : OsText) (extension : String), name = stem ++ OsText.ofText "." ++ extension ∧
    stem ≠ ⟨[]⟩ ∧ '.' ∉ extension.toList ∧
      ∃ wanted ∈ settings.source.extensions,
        equalIgnoringAsciiCase wanted.toList extension.toList = true

/-- A name is a text that ends with the suffix of backups, if there is one. -/
def NamedLikeBackup (settings : Settings) (name : OsText) : Prop :=
  settings.output.backupSuffix ≠ "" ∧
    ∃ stem : String, name = OsText.ofText (stem ++ settings.output.backupSuffix)

theorem bytes_dot : (OsText.ofText ".").bytes = [Path.dot] := by
  decide

theorem extension_append {stem extension : OsText} (something : stem ≠ ⟨[]⟩)
    (dotless : Path.dot ∉ extension.bytes) :
    Path.extension (stem ++ OsText.ofText "." ++ extension) = some extension := by
  have reversed : (stem ++ OsText.ofText "." ++ extension).bytes.reverse =
      extension.bytes.reverse ++ Path.dot :: stem.bytes.reverse := by
    simp [bytes_dot]
  have plain : ∀ byte ∈ extension.bytes.reverse, (byte != Path.dot) = true := by
    intro byte member
    rw [bne_iff_ne]
    rintro rfl
    exact dotless (List.mem_reverse.1 member)
  have front : stem.bytes ≠ [] := mt OsText.bytes_inj.1 something
  rw [Path.extension, reversed, List.dropWhile_append_of_pos plain,
    List.takeWhile_append_of_pos plain, List.dropWhile_cons_of_neg (by simp),
    List.takeWhile_cons_of_neg (by simp)]
  simp [front]

theorem hasReportExtension_iff : hasReportExtension settings name = true ↔
    NamedLikeReport settings name := by
  have dot : ∀ text : String, Path.dot ∉ (OsText.ofText text).bytes ↔ '.' ∉ text.toList :=
    fun text => not_congr (OsText.mem_bytes_ofText_iff (c := '.') (by decide))
  rw [hasReportExtension_eq_true]
  constructor
  · rintro ⟨extension, found, wanted⟩
    obtain ⟨stem, something, spelt, dotless⟩ := extension_eq_some found
    refine ⟨⟨stem⟩, extension, ?_, ?_, (dot _).1 dotless, wanted⟩
    · rw [← OsText.bytes_inj, spelt]
      simp [bytes_dot]
    · rintro ⟨⟩
      exact something rfl
  · rintro ⟨stem, extension, rfl, something, dotless, wanted⟩
    exact ⟨extension, extension_append something ((dot _).2 dotless), wanted⟩

theorem isReport_iff : isReport settings name = true ↔
    NamedLikeReport settings name ∧ ¬ NamedLikeBackup settings name := by
  rw [isReport, Bool.and_eq_true, hasReportExtension_iff, Bool.not_eq_true', ← Bool.not_eq_true,
    isBackup_iff, NamedLikeBackup]

def filePlace? : Found → Option Place
  | .file place => some place
  | .unreadable _ => none

def endsInReport (settings : Settings) (place : Place) : Bool :=
  place.getLast?.any (isReport settings)

theorem endsInReport_append (above : Place) (name : OsText) :
    endsInReport settings (above ++ [name]) = isReport settings name := by
  rw [endsInReport, List.getLast?_concat, Option.any_some]

theorem endsInReport_iff : endsInReport settings place = true ↔
    ∃ above name, place = above ++ [name] ∧
      NamedLikeReport settings name ∧ ¬ NamedLikeBackup settings name := by
  constructor
  · intro h
    obtain rfl | ⟨above, name, rfl⟩ := List.eq_nil_or_concat' place
    · exact nomatch h
    · rw [endsInReport_append, isReport_iff] at h
      exact ⟨above, name, rfl, h⟩
  · rintro ⟨above, name, rfl, h⟩
    rw [endsInReport_append, isReport_iff]
    exact h

theorem reportPath?_file (below : place ≠ []) : reportPath? settings (.file place) =
    if endsInReport settings place then some (Path.ofNames place) else none := by
  obtain ⟨above, name, rfl⟩ := (List.eq_nil_or_concat' place).resolve_left below
  rw [reportPath?, nameAt, List.getLast?_concat, Option.some_or, endsInReport_append]

theorem filterMap_reportPath? (below : ∀ place ∈ found.filterMap filePlace?, place ≠ []) :
    found.filterMap (reportPath? settings) =
      ((found.filterMap filePlace?).filter (endsInReport settings)).map Path.ofNames := by
  induction found with
  | nil => rfl
  | cons item rest ih =>
    cases item with
    | unreadable message => exact ih below
    | file place =>
      obtain ⟨first, others⟩ := List.forall_mem_cons.1 below
      have more := ih others
      cases ends : endsInReport settings place <;>
        simp [reportPath?_file first, filePlace?, ends, more]

theorem discover_value {σ : Type} [FileSystem (StateM σ)] [Journal (StateM σ)] (settings : Settings)
    (state : σ) :
    ((discover settings : StateM σ (List OsText)) state).1 =
      ((FileSystem.walk settings.source.root : StateM σ (List Found)) state).1.filterMap
        (reportPath? settings) :=
  rfl

/-- The paths of the reports in a tree, with their places: those of all regular files that are named
like reports and not like backups, in the order of the bytes of the names that lead there. Each path
is read as the names of its place. Joined to that of the root it is the path of a walk that goes by
these names, and it leads to the place, wherever relative paths start. -/
structure ReportListing (settings : Settings) (regular : Place → Bool) (tree : Tree)
    (paths : List OsText) (places : List Place) : Prop where
  paths : paths = places.map Path.ofNames
  ordered : places.Pairwise (· < ·)
  listed : ∀ place, place ∈ places ↔
    (∃ content, tree.kindAt place = some (.file content)) ∧ regular place = true ∧
      ∃ above name, place = above ++ [name] ∧
        NamedLikeReport settings name ∧ ¬ NamedLikeBackup settings name
  names : ∀ place ∈ places, Path.names (Path.ofNames place) = place
  joined : ∀ place ∈ places, Path.join settings.source.root (Path.ofNames place) =
    place.foldl Path.join settings.source.root
  reached : ∀ place ∈ places, ∀ start,
    destination start (Path.join settings.source.root (Path.ofNames place)) =
      destination start settings.source.root ++ place

theorem reportListing_filter {entries : List (OsText × Tree)}
    (proper : (Tree.directory entries).isProper = true)
    (walked : found.filterMap filePlace? = (Tree.directory entries).files.filter regular) :
    ReportListing settings regular (.directory entries) (found.filterMap (reportPath? settings))
      ((found.filterMap filePlace?).filter (endsInReport settings)) := by
  have below : ∀ place ∈ found.filterMap filePlace?, place ≠ [] := by
    rw [walked]
    exact fun place member => Tree.ne_nil_of_mem_files (List.mem_of_mem_filter member)
  have held : ∀ place ∈ (found.filterMap filePlace?).filter (endsInReport settings),
      place ≠ [] ∧ ∀ name ∈ place, isName name = true := by
    intro place member
    have met := List.mem_of_mem_filter member
    refine ⟨below place met, ?_⟩
    rw [walked] at met
    obtain ⟨content, held⟩ := (Tree.mem_files_iff proper).1 (List.mem_of_mem_filter met)
    exact Tree.isName_of_kindAt proper (by simp [held])
  refine ⟨filterMap_reportPath? below, ?_, fun place => ?_, fun place member => ?_,
    fun place member => ?_, fun place member => ?_⟩
  · rw [walked]
    exact ((Tree.pairwise_files _ proper).filter _).filter _
  · rw [walked, List.mem_filter, List.mem_filter, Tree.mem_files_iff proper, endsInReport_iff,
      and_assoc]
  · exact names_ofNames_eq (held place member).2
  · obtain ⟨inside, names⟩ := held place member
    exact (foldl_join_eq inside names _).symm
  · exact fun start => destination_join_ofNames (held place member).2 start _

/-- Below a directory of which a walk finds the regular files, in the order of names and each
directory where it is met, `discover` lists exactly the reports. Links and what else is no regular
file are not found, and what cannot be looked into is passed over. -/
theorem discover_lists {σ : Type} [FileSystem (StateM σ)] [Journal (StateM σ)] {settings : Settings}
    {state : σ} {entries : List (OsText × Tree)} {regular : Place → Bool}
    (proper : (Tree.directory entries).isProper = true)
    (walked : ((FileSystem.walk settings.source.root : StateM σ (List Found)) state).1.filterMap
      filePlace? = (Tree.directory entries).files.filter regular) :
    ∃ places, ReportListing settings regular (.directory entries)
      ((discover settings : StateM σ (List OsText)) state).1 places :=
  ⟨_, discover_value settings state ▸ reportListing_filter proper walked⟩

/-- Beside the directory `a` there is the file `a.xml`, and what is in the directory comes first. -/
theorem discover_lists_beside_directory :
    let settings : Settings :=
      { source := { root := "root" }, output := { backupSuffix := ".old.xml" } }
    let file := Tree.file "<r/>".toUTF8
    let entries : List (OsText × Tree) := [("b.old.xml", file), ("a.xml", file), (".xml", file),
      ("a", .directory [("z.XML", file)])]
    let machine : Machine := { disk := ⟨.directory [("root", .directory entries)], []⟩ }
    let discovered := ((discover settings : OnMachine (List OsText)) machine).1
    discovered = ["a/z.XML", "a.xml"] ∧
      ∃ places, ReportListing settings (fun _ => true) (.directory entries) discovered places := by
  intro settings file entries machine discovered
  exact ⟨by decide +kernel, discover_lists (by decide +kernel) (by decide +kernel)⟩

theorem discover_lists_backup_without_text :
    let settings : Settings :=
      { source := { root := "root" }, output := { backupSuffix := ".orig.xml" } }
    let original : OsText := ⟨[0xff]⟩ ++ ".xml"
    let backup := original ++ settings.output.backupSuffix
    let entries : List (OsText × Tree) := [(backup, .file "<r/>".toUTF8)]
    let machine : Machine := { disk := ⟨.directory [("root", .directory entries)], []⟩ }
    settings.validate = .ok () ∧ (Tree.directory entries).isProper = true ∧
      ((discover settings : OnMachine (List OsText)) machine).1 = [backup] := by
  refine ⟨by decide +kernel, by decide +kernel, by decide +kernel⟩

end ReportMigration.Migration
