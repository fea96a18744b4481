import ReportMigration.Proofs.Machine
import ReportMigration.Proofs.Migration.Discovery
import ReportMigration.Migration.Phases

/-!
# What the phases of a migration give

The reports that are gathered are those that a walk meets below the root, each as it can be read,
and each is converted on its own. Neither phase touches the disk.
-/

namespace ReportMigration.Migration

open Storage

variable {settings : Settings} {before : Disk} {P : Disk → Prop}

/-- The paths of the reports that a walk below the root meets. -/
def reportsOn (settings : Settings) (disk : Disk) : List OsText :=
  (disk.walk settings.source.root).filterMap (reportPath? settings)

/-- The report at a path as it can be read. -/
def sourceOn (settings : Settings) (disk : Disk) (path : OsText) : Source :=
  ⟨path, (disk.readText (Path.join settings.source.root path)).mapError
    fun fault => (Failure.io fault).message⟩

theorem exists_found_of_mem {disk : Disk} {path : OsText}
    (directory : disk.isDirectory settings.source.root = true)
    (listed : path ∈ reportsOn settings disk) :
    ∃ entries place, disk.find settings.source.root = .ok (.directory entries) ∧
      place ∈ (Tree.directory entries).files ∧
      reportPath? settings (.file place) = some path := by
  obtain ⟨entries, found⟩ := Disk.exists_of_isDirectory directory
  simp only [reportsOn, Disk.walk, found, List.filterMap_map, List.mem_filterMap] at listed
  obtain ⟨place, member, met⟩ := listed
  exact ⟨entries, place, found, member, met⟩

/-- A report on a proper disk is a file at the place of its names below the root. -/
theorem exists_metAt_of_mem {disk : Disk} {path : OsText} (proper : disk.tree.isProper = true)
    (directory : disk.isDirectory settings.source.root = true)
    (listed : path ∈ reportsOn settings disk) :
    (∃ above name, MetAt settings path above name) ∧
      ∃ content, disk.tree.kindAt (destination disk.start (Path.join settings.source.root path)) =
        some (.file content) := by
  obtain ⟨entries, place, found, member, met⟩ := exists_found_of_mem directory listed
  have there := (Disk.find_ok found).1
  have properly := Tree.isProper_at? proper there
  obtain ⟨content, held⟩ := (Tree.mem_files_iff properly).1 member
  have present : (Tree.directory entries).kindAt place ≠ none := by simp [held]
  have names := Tree.isName_of_kindAt properly present
  obtain ⟨above, name, rfl, metAt⟩ := exists_metAt (Tree.ne_nil_of_mem_files member) names met
  refine ⟨⟨above, name, metAt⟩, content, ?_⟩
  rw [metAt.destination_eq, Tree.kindAt_append there, held]

theorem ensures_discover :
    Ensures P (discover settings : OnMachine (List OsText)) fun paths disk =>
      P disk ∧ paths = reportsOn settings disk := by
  refine Ensures.bind (Ensures.walk _) fun found => ?_
  refine Ensures.bind (Q := fun _ disk => P disk ∧ found = disk.walk settings.source.root) ?_
    fun _ => Ensures.pure fun disk h => ⟨h.1, h.2 ▸ rfl⟩
  refine Ensures.forM fun item _ => ?_
  cases item with
  | file place => exact Ensures.pure fun _ h => h
  | unreadable message => exact Ensures.note _ _

theorem discover_eq (settings : Settings) (machine : Machine) :
    ((discover settings : OnMachine (List OsText)) machine).1 = reportsOn settings machine.disk := by
  obtain ⟨same, listed⟩ := @ensures_discover settings (· = machine.disk) machine rfl
  rw [listed, same]

theorem ensures_readSource (path : OsText) :
    Ensures (· = before) (readSource (Storage.below settings.source.root) path : OnMachine Source)
      fun source disk => disk = before ∧ source = sourceOn settings before path := by
  have reads : Ensures (· = before)
      ((Storage.below settings.source.root).readReport path : ExceptT Failure OnMachine String).run
      fun result disk => disk = before ∧
        result = (before.readText (Path.join settings.source.root path)).mapError Failure.io := by
    rintro machine rfl
    exact ⟨rfl, rfl⟩
  refine Ensures.bind reads fun result => ?_
  unfold sourceOn
  cases before.readText (Path.join settings.source.root path) with
  | ok text =>
    cases result with
    | ok _ => exact Ensures.pure fun disk h => ⟨h.1, by rw [Except.ok.inj h.2]; rfl⟩
    | error _ => exact Ensures.assume (fun _ h => h.2) nofun
  | error fault =>
    cases result with
    | ok _ => exact Ensures.assume (fun _ h => h.2) nofun
    | error _ =>
      refine Ensures.assume (fun _ h => Except.error.inj h.2) fun same => ?_
      refine Ensures.bind ((Ensures.note _ _).mono (fun _ h => h.1) fun _ _ h => h) fun _ => ?_
      exact Ensures.pure fun _ h => ⟨h, by rw [same]; rfl⟩

theorem attempts_note {failed : Disk → Prop} (level : Level) (message : String) :
    Attempts P (note level message : ExceptT Failure OnMachine Unit) (fun _ => P) failed :=
  Attempts.lift (Ensures.note _ _)

theorem attempts_gather :
    Attempts (· = before)
      (gather settings (Storage.below settings.source.root) : ExceptT Failure OnMachine (List Source))
      (fun sources disk => disk = before ∧ before.isDirectory settings.source.root = true ∧
        sources = (reportsOn settings before).map (sourceOn settings before))
      (fun disk => disk = before ∧ before.isDirectory settings.source.root = false) := by
  refine Attempts.bind (Attempts.lift (Ensures.isDirectory _)) fun directory => ?_
  cases directory with
  | false => exact Attempts.throw fun _ h => ⟨h.1, h.1 ▸ h.2.symm⟩
  | true =>
    refine Attempts.bind (Attempts.lift ensures_discover) fun paths => ?_
    refine Attempts.bind (attempts_note _ _) fun _ => Attempts.lift ?_
    rintro machine ⟨⟨rfl, directory⟩, rfl⟩
    obtain ⟨same, sources⟩ := Ensures.mapM_eq (fun path _ => ensures_readSource path) machine rfl
    exact ⟨same, directory.symm, sources⟩

/-- A run on the machine comes upon a report at the path. -/
def Discovers (settings : Settings) (machine : Machine) (path : OsText) : Prop :=
  ∃ sources, ((gather settings (Storage.below settings.source.root) :
      ExceptT Failure OnMachine (List Source)) machine).1 = .ok sources ∧
    path ∈ sources.map (·.path)

theorem discovers_iff {machine : Machine} {path : OsText} :
    Discovers settings machine path ↔
      machine.disk.isDirectory settings.source.root = true ∧
        path ∈ reportsOn settings machine.disk := by
  obtain ⟨succeeds, fails⟩ := @attempts_gather settings _ machine rfl
  have paths : ∀ disk, ((reportsOn settings disk).map (sourceOn settings disk)).map (·.path) =
      reportsOn settings disk := by
    intro disk
    simp [sourceOn, Function.comp_def]
  constructor
  · rintro ⟨sources, gathered, member⟩
    obtain ⟨-, directory, rfl⟩ := succeeds sources gathered
    exact ⟨directory, paths _ ▸ member⟩
  · rintro ⟨directory, member⟩
    cases ends : ((gather settings (Storage.below settings.source.root) :
      ExceptT Failure OnMachine (List Source)) machine).1 with
    | error fault =>
      rw [(fails fault ends).2] at directory
      exact nomatch directory
    | ok sources =>
      obtain ⟨-, -, rfl⟩ := succeeds sources ends
      exact ⟨_, ends, (paths _).symm ▸ member⟩

theorem Discovers.exists_metAt {machine : Machine} {path : OsText}
    (h : Discovers settings machine path) (proper : machine.disk.tree.isProper = true) :
    ∃ above name, MetAt settings path above name := by
  obtain ⟨directory, listed⟩ := discovers_iff.1 h
  exact (exists_metAt_of_mem proper directory listed).1

theorem convertSource_path (settings : Settings) (source : Source) :
    (convertSource settings source).1.path = source.path := by
  unfold convertSource
  split <;> rfl

theorem convertSource_text {source : Source} {text : String}
    (h : (convertSource settings source).1.text = some text) :
    ∃ original, source.content = .ok original := by
  unfold convertSource at h
  split at h
  · exact nomatch h
  · next original read => exact ⟨original, read⟩

theorem ensures_convertDocument (source : Source) :
    Ensures P (convertDocument settings source : OnMachine Converted) fun document disk =>
      P disk ∧ document = (convertSource settings source).1 := by
  unfold convertDocument
  cases convertSource settings source with
  | mk document skipped =>
    refine Ensures.bind (Ensures.forM fun _ _ => Ensures.note _ _) fun _ => ?_
    refine Ensures.bind (Q := fun _ => P) ?_ fun _ => Ensures.pure fun disk h => ⟨h, rfl⟩
    cases document.outcome <;> exact Ensures.note _ _

theorem attempts_convertAll (sources : List Source) {failed : Disk → Prop} :
    Attempts P (convertAll settings sources : ExceptT Failure OnMachine (List Converted))
      (fun documents disk => P disk ∧
        documents = sources.map fun source => (convertSource settings source).1)
      failed :=
  Attempts.lift (Ensures.mapM_eq fun source _ => ensures_convertDocument source)

end ReportMigration.Migration
