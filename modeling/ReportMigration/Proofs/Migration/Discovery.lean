import ReportMigration.Migration.Discovery
import ReportMigration.Proofs.Settings.Validation
import ReportMigration.Proofs.Storage.Names

/-!
# Where reports and their backups are

The backup of a report is beside it under its name with the suffix. If the name is a text, or the
suffix does not end like the name of a report, then no report is where the backup is.
-/

namespace ReportMigration.Migration

open Storage Text

variable {settings : Settings} {name : OsText} {place aside other otherAside : Place}

theorem extension_eq_some {found : OsText} (h : Path.extension name = some found) :
    ∃ stem, stem ≠ [] ∧ name.bytes = stem ++ Path.dot :: found.bytes ∧
      Path.dot ∉ found.bytes := by
  unfold Path.extension at h
  dsimp only at h
  split at h
  · exact nomatch h
  · next first stem behind =>
    split_ifs at h with empty
    obtain rfl := Option.some.inj h
    have whole := List.takeWhile_append_dropWhile (p := (· != Path.dot)) (l := name.bytes.reverse)
    have dotted : first = Path.dot := by
      have stops := List.head?_dropWhile_not (· != Path.dot) name.bytes.reverse
      simpa [behind] using stops
    refine ⟨stem.reverse, by simpa using empty, ?_, fun inside => ?_⟩
    · rw [behind, dotted] at whole
      simpa using (congrArg List.reverse whole).symm
    · rw [List.mem_reverse] at inside
      simpa using List.mem_takeWhile_imp inside

theorem hasReportExtension_eq_true : hasReportExtension settings name = true ↔
    ∃ found : String, Path.extension name = some (OsText.ofText found) ∧
      ∃ wanted ∈ settings.source.extensions,
        equalIgnoringAsciiCase wanted.toList found.toList = true := by
  rw [hasReportExtension]
  cases extension : (Path.extension name).bind OsText.toText? with
  | none =>
    refine iff_of_false nofun ?_
    rintro ⟨found, h, -⟩
    rw [h, Option.bind_some, OsText.toText?_ofText] at extension
    cases extension
  | some text =>
    obtain ⟨found, h, spelt⟩ := Option.bind_eq_some_iff.1 extension
    obtain rfl := OsText.toText?_eq_some_iff.1 spelt
    simp [h, OsText.ofText_inj]

/-- A text ends with a dot and a wanted extension. Upper and lower case do not matter. -/
def EndsLikeReport (settings : Settings) (text : List Char) : Prop :=
  ∃ front found, text = front ++ '.' :: found ∧ '.' ∉ found ∧
    ∃ wanted ∈ settings.source.extensions, equalIgnoringAsciiCase wanted.toList found = true

/-- What follows the last dot of the name of a report is in every end of it that has a dot. -/
theorem endsLikeReport_of_suffix {suffix : String} (h : hasReportExtension settings name = true)
    (ends : (OsText.ofText suffix).bytes <:+ name.bytes) (dotted : '.' ∈ suffix.toList) :
    EndsLikeReport settings suffix.toList := by
  obtain ⟨found, extension, wanted⟩ := hasReportExtension_eq_true.1 h
  obtain ⟨stem, -, spelt, dotless⟩ := extension_eq_some extension
  have plain : '.' ∉ found.toList := fun inside =>
    dotless ((OsText.mem_bytes_ofText_iff (by decide)).2 inside)
  have last : Path.dot :: (OsText.ofText found).bytes = Text.bytes ('.' :: found.toList) := by
    rw [OsText.bytes_ofText, Text.bytes_cons_ascii (by decide)]
    rfl
  rw [spelt, last, OsText.bytes_ofText] at ends
  -- either the end begins behind the last dot or before it
  rcases List.suffix_or_suffix_of_suffix ends (List.suffix_append stem _) with inner | outer
  · rcases List.suffix_cons_iff.1 (Text.suffix_of_bytes_suffix inner) with whole | inner
    · exact ⟨[], found.toList, whole, plain, wanted⟩
    · exact absurd (inner.subset dotted) plain
  · obtain ⟨front, same⟩ := Text.suffix_of_bytes_suffix outer
    exact ⟨front, found.toList, same.symm, plain, wanted⟩

theorem isBackup_iff : isBackup settings name = true ↔ settings.output.backupSuffix ≠ "" ∧
    ∃ stem : String, name = OsText.ofText (stem ++ settings.output.backupSuffix) := by
  have ends : ∀ text : String, settings.output.backupSuffix.toList <:+ text.toList ↔
      ∃ stem, text = stem ++ settings.output.backupSuffix := by
    intro text
    constructor
    · rintro ⟨stem, spelt⟩
      refine ⟨String.ofList stem, ?_⟩
      rw [← String.toList_inj, String.toList_append, String.toList_ofList, spelt]
    · rintro ⟨stem, rfl⟩
      exact ⟨stem.toList, String.toList_append.symm⟩
  rw [isBackup, Bool.and_eq_true]
  refine and_congr (by simp) ?_
  cases read : name.toText? with
  | none =>
    refine iff_of_false nofun ?_
    rintro ⟨stem, rfl⟩
    rw [OsText.toText?_ofText] at read
    cases read
  | some text =>
    obtain rfl := OsText.toText?_eq_some_iff.1 read
    simp [List.isSuffixOf_iff_suffix, ends, OsText.ofText_inj]

theorem suffix_of_validate (valid : settings.validate = .ok ())
    (kept : settings.output.backup = true) :
    settings.output.backupSuffix.toList.head? = some '.' ∧
      '/' ∉ settings.output.backupSuffix.toList := by
  obtain ⟨-, dotted, -, flat, -⟩ :=
    Settings.validateBackupSuffix_eq_ok.1 ((Settings.validate_eq_ok.1 valid).2.2.2.1 kept)
  exact ⟨dotted, flat⟩

/-- The place of a report and that of its backup. -/
def Beside (settings : Settings) (place aside : Place) : Prop :=
  ∃ above name, place = above ++ [name] ∧
    aside = above ++ [name ++ OsText.ofText settings.output.backupSuffix] ∧
    isReport settings name = true

/-- The name of a backup of the report at a place is not that of a report: the name of the report is
a text, or the suffix does not end like that of a report. -/
def ToldApart (settings : Settings) (place : Place) : Prop :=
  (∃ above, ∃ text : String, place = above ++ [OsText.ofText text]) ∨
    ¬ EndsLikeReport settings settings.output.backupSuffix.toList

/-- A name that ends with the suffix is not that of a report, if it is a text or the suffix does not
end like the name of one. -/
theorem not_isReport_append {name : OsText}
    (dotted : settings.output.backupSuffix.toList.head? = some '.')
    (told : (∃ text : String,
        name ++ OsText.ofText settings.output.backupSuffix = OsText.ofText text) ∨
      ¬ EndsLikeReport settings settings.output.backupSuffix.toList) :
    ¬ isReport settings (name ++ OsText.ofText settings.output.backupSuffix) = true := by
  intro report
  rw [isReport, Bool.and_eq_true, Bool.not_eq_true'] at report
  rcases told with ⟨text, whole⟩ | plain
  · have ends : (OsText.ofText settings.output.backupSuffix).bytes <:+ (OsText.ofText text).bytes :=
      whole ▸ List.suffix_append _ _
    obtain ⟨stem, same⟩ := OsText.suffix_ofText_iff.1 ends
    have backup : isBackup settings (name ++ settings.output.backupSuffix) = true := by
      refine isBackup_iff.2 ⟨?_, String.ofList stem, ?_⟩
      · rintro empty
        rw [empty] at dotted
        cases dotted
      · rw [whole, OsText.ofText_inj, ← String.toList_inj, ← same]
        simp
    exact nomatch report.2.symm.trans backup
  · exact plain (endsLikeReport_of_suffix report.1 (List.suffix_append _ _)
      (List.mem_of_mem_head? dotted))

namespace Beside

theorem ne (h : Beside settings place aside) (dotted : settings.output.backupSuffix ≠ "") :
    place ≠ aside := by
  obtain ⟨above, name, rfl, rfl, -⟩ := h
  intro same
  obtain ⟨-, same⟩ := List.append_inj' same rfl
  have spelt := congrArg OsText.bytes (List.singleton_inj.1 same)
  rw [OsText.bytes_append, List.self_eq_append_right] at spelt
  exact dotted (OsText.ofText_inj.1 (OsText.bytes_inj.1 spelt))

theorem aside_eq_iff (h : Beside settings place aside) (h' : Beside settings other otherAside) :
    otherAside = aside ↔ other = place := by
  obtain ⟨above, name, rfl, rfl, -⟩ := h
  obtain ⟨above', name', rfl, rfl, -⟩ := h'
  constructor
  · intro same
    obtain ⟨rfl, last⟩ := List.append_inj' same rfl
    have spelt := congrArg OsText.bytes (List.singleton_inj.1 last)
    rw [OsText.bytes_append, OsText.bytes_append, List.append_left_inj, OsText.bytes_inj] at spelt
    rw [spelt]
  · intro same
    obtain ⟨rfl, last⟩ := List.append_inj' same rfl
    rw [List.singleton_inj.1 last]

variable (dotted : settings.output.backupSuffix.toList.head? = some '.')
include dotted

theorem ne_aside (h : Beside settings place aside) (told : ToldApart settings place)
    (h' : Beside settings other otherAside) : other ≠ aside := by
  obtain ⟨above, name, rfl, rfl, -⟩ := h
  obtain ⟨above', name', rfl, -, report⟩ := h'
  intro same
  obtain ⟨-, same⟩ := List.append_inj' same rfl
  obtain rfl := List.singleton_inj.1 same
  refine not_isReport_append dotted (told.imp_left ?_) report
  rintro ⟨_, text, spelt⟩
  obtain ⟨-, spelt⟩ := List.append_inj' spelt rfl
  exact ⟨text ++ settings.output.backupSuffix, by
    rw [List.singleton_inj.1 spelt, OsText.ofText_append]⟩

theorem ne_otherAside (h : Beside settings place aside) (told : ToldApart settings place)
    (h' : Beside settings other otherAside) : otherAside ≠ place := by
  obtain ⟨above, name, rfl, -, report⟩ := h
  obtain ⟨above', name', -, rfl, -⟩ := h'
  intro same
  obtain ⟨-, same⟩ := List.append_inj' same rfl
  obtain rfl := List.singleton_inj.1 same
  refine not_isReport_append dotted (told.imp_left ?_) report
  rintro ⟨_, text, spelt⟩
  exact ⟨text, List.singleton_inj.1 (List.append_inj' spelt rfl).2⟩

end Beside

theorem reportPath?_eq_some {path : OsText} : reportPath? settings (.file place) = some path ↔
    ∃ name, nameAt settings.source.root place = some name ∧ isReport settings name = true ∧
      Path.ofNames place = path := by
  cases named : nameAt settings.source.root place with
  | none => simp [reportPath?, named]
  | some name => simp [reportPath?, named]

/-- A report that a walk met below the root, under a name in a directory. -/
structure MetAt (settings : Settings) (path : OsText) (above : Place) (name : OsText) : Prop where
  path : path = Path.ofNames (above ++ [name])
  names : ∀ other ∈ above ++ [name], isName other = true
  report : isReport settings name = true

theorem exists_metAt {path : OsText} (below : place ≠ [])
    (names : ∀ name ∈ place, isName name = true)
    (h : reportPath? settings (.file place) = some path) :
    ∃ above name, place = above ++ [name] ∧ MetAt settings path above name := by
  obtain ⟨above, name, rfl⟩ := (List.eq_nil_or_concat' place).resolve_left below
  obtain ⟨last, named, report, spelt⟩ := reportPath?_eq_some.1 h
  rw [nameAt, List.getLast?_concat, Option.some_or] at named
  obtain rfl := Option.some.inj named
  exact ⟨above, name, rfl, spelt.symm, names, report⟩

namespace MetAt

variable {path : OsText} {above : Place}

theorem isName (h : MetAt settings path above name) : Storage.isName name = true :=
  h.names name (by simp)

theorem destination_eq (h : MetAt settings path above name) (start : Place) :
    destination start (Path.join settings.source.root path) =
      destination start settings.source.root ++ (above ++ [name]) := by
  rw [h.path, destination_join_ofNames h.names]

theorem isName_backup (h : MetAt settings path above name) (valid : settings.validate = .ok ())
    (kept : settings.output.backup = true) :
    Storage.isName (name ++ settings.output.backupSuffix) = true := by
  obtain ⟨dotted, flat⟩ := suffix_of_validate valid kept
  exact isName_append h.isName (OsText.head?_bytes_ofText (by decide) dotted)
    (mt (OsText.mem_bytes_ofText_iff (c := '/') (by decide)).1 flat)

theorem destination_backup (h : MetAt settings path above name) (valid : settings.validate = .ok ())
    (kept : settings.output.backup = true) (start : Place) :
    destination start (Path.join settings.source.root (path ++ settings.output.backupSuffix)) =
      destination start settings.source.root ++ (above ++ [name ++ settings.output.backupSuffix]) := by
  have names : ∀ other ∈ above ++ [name ++ settings.output.backupSuffix],
      Storage.isName other = true := by
    intro other member
    rcases List.mem_append.1 member with member | member
    · exact h.names other (List.mem_append_left _ member)
    · exact List.mem_singleton.1 member ▸ h.isName_backup valid kept
  rw [h.path, Path.ofNames_append, destination_join_ofNames names]

theorem beside (h : MetAt settings path above name) (valid : settings.validate = .ok ())
    (kept : settings.output.backup = true) (start : Place) :
    Beside settings (destination start (Path.join settings.source.root path))
      (destination start (Path.join settings.source.root (path ++ settings.output.backupSuffix))) := by
  refine ⟨destination start settings.source.root ++ above, name, ?_, ?_, h.report⟩
  · rw [h.destination_eq, List.append_assoc]
  · rw [h.destination_backup valid kept, List.append_assoc]

/-- The path of a report below the root ends with its name, which goes on when the path does. -/
theorem exists_lead (h : MetAt settings path above name) :
    ∃ lead, Path.Above lead ∧ ∀ more : OsText,
      Path.join settings.source.root (path ++ more) = ⟨lead ++ (name.bytes ++ more.bytes)⟩ := by
  obtain ⟨front, leads, spelt⟩ := Path.exists_ofNames_concat above
  have named : path.bytes ≠ [] := by
    obtain ⟨nonempty, -⟩ := isProper_of_isName h.isName
    simp [h.path, spelt, nonempty]
  obtain ⟨base, aboveBase, joined⟩ := Path.exists_join settings.source.root named
  refine ⟨base ++ front, aboveBase.append leads, fun more => ?_⟩
  rw [joined, h.path, spelt]
  simp

end MetAt

end ReportMigration.Migration
