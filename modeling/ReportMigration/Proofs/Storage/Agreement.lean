import Mathlib
import ReportMigration.Proofs.Storage.Disk
import ReportMigration.Proofs.Storage.Files

/-!
# Disks that agree

An operation depends on a disk by nothing but the directories on its way and what the place of its
path holds. On two disks that agree there it comes to the same, and they agree again behind it.
-/

namespace ReportMigration.Storage

/-- Two disks agree on some places. -/
def AgreeOn (inside : Place → Prop) (disk disk' : Disk) : Prop :=
  ∀ place, inside place → disk'.tree.kindAt place = disk.tree.kindAt place

/-- Files may have come and may hold something else, but nothing has vanished, and the directories
are the same. -/
structure Grown (before after : Disk) : Prop where
  start : after.start = before.start
  directories : ∀ place, after.tree.kindAt place = some .directory ↔
    before.tree.kindAt place = some .directory
  present : ∀ place, before.tree.kindAt place ≠ none → after.tree.kindAt place ≠ none

def LeadsToFile (disk : Disk) (path : OsText) : Prop :=
  disk.locate path = .ok (destination disk.start path) ∧
    ∃ content, disk.tree.kindAt (destination disk.start path) = some (.file content)

variable {inside inside' : Place → Prop} {disk disk' after middle : Disk} {path other : OsText}
  {place : Place} {content : ByteArray}

namespace AgreeOn

theorem refl (inside : Place → Prop) (disk : Disk) : AgreeOn inside disk disk :=
  fun _ _ => rfl

theorem symm (h : AgreeOn inside disk disk') : AgreeOn inside disk' disk :=
  fun place member => (h place member).symm

theorem trans (h : AgreeOn inside disk middle) (h' : AgreeOn inside middle after) :
    AgreeOn inside disk after :=
  fun place member => (h' place member).trans (h place member)

theorem mono (h : AgreeOn inside disk disk') (fewer : ∀ place, inside' place → inside place) :
    AgreeOn inside' disk disk' :=
  fun place member => h place (fewer place member)

end AgreeOn

namespace Grown

theorem refl (disk : Disk) : Grown disk disk :=
  ⟨rfl, fun _ => Iff.rfl, fun _ there => there⟩

theorem trans (h : Grown disk middle) (h' : Grown middle after) : Grown disk after :=
  ⟨h'.start.trans h.start, fun place => (h'.directories place).trans (h.directories place),
    fun place there => h'.present place (h.present place there)⟩

theorem file (h : Grown disk after) (held : disk.tree.kindAt place = some (.file content)) :
    ∃ content', after.tree.kindAt place = some (.file content') := by
  have there := h.present place (by simp [held])
  cases holds : after.tree.kindAt place with
  | none => exact absurd holds there
  | some kind =>
    cases kind with
    | file content' => exact ⟨content', rfl⟩
    | directory =>
      rw [(h.directories place).1 holds] at held
      cases held

end Grown

namespace Disk

theorem at?_of_directory {tree : Tree} (h : tree.kindAt place = some .directory) :
    ∃ entries, tree.at? place = some (.directory entries) := by
  obtain ⟨inner, there, same⟩ := Option.map_eq_some_iff.1 h
  cases inner with
  | file content => cases same
  | directory entries => exact ⟨entries, there⟩

theorem at?_of_file {tree : Tree} (h : tree.kindAt place = some (.file content)) :
    tree.at? place = some (.file content) := by
  obtain ⟨inner, there, same⟩ := Option.map_eq_some_iff.1 h
  cases inner with
  | file content =>
    cases same
    exact there
  | directory entries => cases same

theorem step_of_directory {tree tree' : Tree} (h : tree.kindAt place = some .directory)
    (h' : tree'.kindAt place = some .directory) (name : OsText) :
    step tree' place name = step tree place name := by
  obtain ⟨entries, there⟩ := at?_of_directory h
  obtain ⟨entries', there'⟩ := at?_of_directory h'
  rw [step, step, there, there']

theorem foldlM_step_of_directories {tree tree' : Tree} {names : List OsText} {next : Place}
    (directories : ∀ place, tree.kindAt place = some .directory →
      tree'.kindAt place = some .directory)
    (h : names.foldlM (step tree) place = .ok next) : names.foldlM (step tree') place = .ok next := by
  induction names generalizing place with
  | nil => exact h
  | cons name rest ih =>
    obtain ⟨middle, first, onwards⟩ := foldlM_step_cons.1 h
    have held := (step_ok first).2
    have first' := (step_of_directory held (directories _ held) name).trans first
    exact foldlM_step_cons.2 ⟨middle, first', ih onwards⟩

theorem locate_of_flat (flat : Path.endsWithSlash path = false) (disk : Disk) :
    disk.locate path = checkPath path >>= fun _ =>
      disk.follow (disk.origin path) (Path.names path) := by
  rw [locate, flat]
  rfl

theorem locateFile_of_flat (flat : Path.endsWithSlash path = false) (disk : Disk) :
    disk.locateFile path = disk.locate path := by
  rw [locate_of_flat flat, locateFile, flat]
  rfl

theorem locate_eq_ok_of_flat (flat : Path.endsWithSlash path = false) :
    disk.locate path = .ok place ↔ checkPath path = .ok () ∧
      (Path.names path).foldlM (step disk.tree) (disk.origin path) = .ok place := by
  rw [locate_of_flat flat, ← follow_ok]
  cases checkPath path <;> simp [bind, Except.bind]

theorem locate_of_grown (flat : Path.endsWithSlash path = false) (grown : Grown disk after)
    (h : disk.locate path = .ok place) : after.locate path = .ok place := by
  rw [locate_eq_ok_of_flat flat] at h ⊢
  refine ⟨h.1, ?_⟩
  rw [origin, grown.start, ← origin]
  exact foldlM_step_of_directories (fun place => (grown.directories place).2) h.2

/-- The way to a place beside that of a path is the same on two disks where that of the path is. -/
theorem locate_neighbour (beside : Path.Neighbours path other) (start : disk'.start = disk.start)
    (h : disk.locate path = .ok place) (h' : disk'.locate path = .ok place) :
    disk'.locate other = disk.locate other := by
  obtain ⟨front, name, name', hnames, hnames', -, -⟩ := beside.names
  have origin_eq : disk'.origin path = disk.origin path := by rw [origin, start, ← origin]
  have way := ((locate_eq_ok_of_flat beside.flat).1 h).2
  have way' := ((locate_eq_ok_of_flat beside.flat).1 h').2
  rw [hnames, foldlM_step_append] at way way'
  rw [origin_eq] at way'
  obtain ⟨above, most, last⟩ := way
  obtain ⟨above', most', last'⟩ := way'
  obtain rfl : above' = above := (foldlM_step_ok most').trans (foldlM_step_ok most).symm
  obtain ⟨_, final, -⟩ := foldlM_step_cons.1 last
  obtain ⟨_, final', -⟩ := foldlM_step_cons.1 last'
  have final_eq := step_of_directory (step_ok final).2 (step_ok final').2 name'
  have follow_eq : disk'.follow (disk.origin path) (front ++ [name']) =
      disk.follow (disk.origin path) (front ++ [name']) := by
    rw [follow, follow, List.foldlM_append, List.foldlM_append, most, most']
    simp only [bind, Except.bind, List.foldlM_cons, List.foldlM_nil, final_eq]
  have origins : ∀ disk : Disk, disk.origin other = disk.origin path := fun disk => by
    rw [origin, origin, beside.absolute]
  rw [locate_of_flat beside.flat', locate_of_flat beside.flat', origins, origins, origin_eq, hnames',
    follow_eq]

theorem isPresent_eq (disk : Disk) (path : OsText) :
    disk.isPresent path = match disk.locate path with
      | .ok place => .ok (disk.tree.kindAt place).isSome
      | .error fault => if fault = .notFound then .ok false else .error fault := by
  unfold isPresent find
  cases disk.locate path with
  | error fault =>
    cases fault with
    | os fault => cases fault <;> rfl
    | _ => rfl
  | ok place =>
    dsimp only [bind, Except.bind]
    rw [Tree.kindAt]
    cases disk.tree.at? place <;> rfl

theorem readText_eq (disk : Disk) (path : OsText) :
    disk.readText path = match disk.locate path with
      | .ok place => match disk.tree.kindAt place with
        | none => .error .notFound
        | some .directory => .error (.os .isADirectory)
        | some (.file content) => match String.fromUTF8? content with
          | none => .error .invalidUtf8
          | some text => .ok text
      | .error fault => .error fault := by
  unfold readText find
  cases disk.locate path with
  | error fault => rfl
  | ok place =>
    dsimp only [bind, Except.bind]
    rw [Tree.kindAt]
    rcases disk.tree.at? place with _ | ⟨_ | _⟩ <;> rfl

theorem writeContent_eq (disk : Disk) (path : OsText) (content : ByteArray) :
    disk.writeContent path content = match disk.locateFile path with
      | .ok place =>
        if disk.tree.kindAt place = some .directory then .error (.os .isADirectory)
        else .ok { disk with tree := disk.tree.put place (.file content) }
      | .error fault => .error fault := by
  unfold writeContent
  cases disk.locateFile path with
  | error fault => rfl
  | ok place =>
    dsimp only [bind, Except.bind]
    rw [Tree.kindAt]
    rcases disk.tree.at? place with _ | ⟨_ | _⟩ <;> simp [Tree.kind]

theorem copyFile_eq (disk : Disk) (source target : OsText) :
    disk.copyFile source target = match disk.locate source with
      | .ok place => match disk.tree.kindAt place with
        | none => .error .notFound
        | some .directory => .error .notARegularFile
        | some (.file content) => disk.writeContent target content
      | .error fault => .error fault := by
  unfold copyFile find
  cases disk.locate source with
  | error fault => rfl
  | ok place =>
    dsimp only [bind, Except.bind]
    rw [Tree.kindAt]
    rcases disk.tree.at? place with _ | ⟨_ | _⟩ <;> rfl

end Disk

open Disk

theorem LeadsToFile.grown (h : LeadsToFile disk path) (flat : Path.endsWithSlash path = false)
    (grown : Grown disk after) : LeadsToFile after path := by
  obtain ⟨located, content, held⟩ := h
  rw [LeadsToFile, grown.start]
  exact ⟨locate_of_grown flat grown located, grown.file held⟩

theorem LeadsToFile.find (h : LeadsToFile disk path) : ∃ found, disk.find path = .ok found := by
  obtain ⟨located, content, held⟩ := h
  obtain ⟨found, there, -⟩ := Option.map_eq_some_iff.1 held
  refine ⟨found, ?_⟩
  rw [Disk.find, located]
  dsimp only [bind, Except.bind]
  rw [there]

theorem agreeOn_writeContent (h : disk.writeContent path content = .ok after) :
    AgreeOn (· ≠ destination disk.start path) disk after :=
  fun _ away => kindAt_writeContent_of_ne h away

theorem grown_writeContent (h : disk.writeContent path content = .ok after) : Grown disk after := by
  refine ⟨start_writeContent h, fun place => ?_, fun place there => present_writeContent h there⟩
  by_cases here : place = destination disk.start path
  · rw [here, kindAt_writeContent h]
    exact iff_of_false nofun (writeContent_ok h).2.2.1
  · rw [kindAt_writeContent_of_ne h here]

theorem isProper_writeContent (h : disk.writeContent path content = .ok after)
    (proper : disk.tree.isProper = true) : after.tree.isProper = true := by
  obtain ⟨located, named, free, rfl⟩ := writeContent_ok h
  obtain ⟨above, name, ends, inside, member, dot, dots⟩ :=
    above_of_foldlM_step named (locate_ok located) free
  have leads : ∀ name ∈ above, isName name = true :=
    Tree.isName_of_kindAt proper (by simp [inside])
  obtain ⟨nonempty, plain⟩ := Path.of_mem_names member
  have last : isName name = true := isName_iff.2 ⟨nonempty, dot, dots, plain⟩
  refine Tree.isProper_put proper ?_ rfl
  rw [ends]
  exact List.forall_mem_append.2 ⟨leads, List.forall_mem_singleton.2 last⟩

/-- Two operations were refused for the same reason, or gave disks that agree. -/
inductive Alike (inside : Place → Prop) : Except IoFault Disk → Except IoFault Disk → Prop
  | ok {disk disk' : Disk} (h : AgreeOn inside disk disk') : Alike inside (.ok disk) (.ok disk')
  | error (fault : IoFault) : Alike inside (.error fault) (.error fault)

/-- The same file is written on both of two disks that agree at its place, or refused. -/
theorem alike_writeContent (start : disk'.start = disk.start)
    (located : disk'.locateFile path = disk.locateFile path) (agree : AgreeOn inside disk disk')
    (here : inside (destination disk.start path)) (content : ByteArray) :
    Alike inside (disk.writeContent path content) (disk'.writeContent path content) := by
  have writes := writeContent_eq disk path content
  have writes' := writeContent_eq disk' path content
  rw [located] at writes'
  cases reached : disk.locateFile path with
  | error fault =>
    rw [reached] at writes writes'
    rw [writes, writes']
    exact .error fault
  | ok place =>
    obtain rfl := destination_of_locate (locate_of_locateFile reached).1
    rw [reached] at writes writes'
    dsimp only at writes writes'
    rw [agree _ here] at writes'
    split_ifs at writes writes' with directory
    · rw [writes, writes']
      exact .error _
    · rw [writes, writes']
      refine .ok fun place member => ?_
      by_cases same : place = destination disk.start path
      · have made := kindAt_writeContent writes'
        rw [start] at made
        rw [same, made, kindAt_writeContent writes]
      · rw [kindAt_writeContent_of_ne writes same,
          kindAt_writeContent_of_ne writes' (start ▸ same), agree place member]

theorem createFrom_congr {tree tree' : Tree} {names more : List OsText} {next : Place}
    (way : (names ++ more).foldlM (step tree) place = .ok next)
    (way' : (names ++ more).foldlM (step tree') place = .ok next)
    (held : ∃ content, tree.kindAt next = some (.file content))
    (held' : ∃ content, tree'.kindAt next = some (.file content)) :
    (createFrom tree' place names).1 = (createFrom tree place names).1 := by
  induction names generalizing place with
  | nil => rfl
  | cons name rest ih =>
    rw [List.cons_append] at way way'
    obtain ⟨middle, first, onwards⟩ := foldlM_step_cons.1 way
    obtain ⟨middle', first', onwards'⟩ := foldlM_step_cons.1 way'
    obtain rfl : middle' = middle := (step_ok first').1.trans (step_ok first).1.symm
    rw [createFrom, createFrom, first, first']
    dsimp only
    cases further : rest ++ more with
    | nil =>
      rw [further] at onwards onwards'
      obtain rfl := Except.ok.inj onwards
      obtain ⟨content, held⟩ := held
      obtain ⟨content', held'⟩ := held'
      rw [at?_of_file held, at?_of_file held']
    | cons inner others =>
      have inside := onwards
      have inside' := onwards'
      rw [further] at inside inside'
      obtain ⟨_, second, -⟩ := foldlM_step_cons.1 inside
      obtain ⟨_, second', -⟩ := foldlM_step_cons.1 inside'
      obtain ⟨entries, there⟩ := at?_of_directory (step_ok second).2
      obtain ⟨entries', there'⟩ := at?_of_directory (step_ok second').2
      rw [there, there']
      exact ih onwards onwards'

theorem createDirectories_congr (leads : LeadsToFile disk path) (leads' : LeadsToFile disk' path)
    (start : disk'.start = disk.start) {directory : OsText}
    (above : Path.parent path = some directory) :
    (disk'.createDirectories directory).1 = (disk.createDirectories directory).1 := by
  obtain ⟨more, rest⟩ := Path.names_parent above
  have origins : ∀ disk : Disk, disk.origin directory = disk.origin path := fun disk => by
    rw [origin, origin, Path.isAbsolute_parent above]
  have origin_eq : disk'.origin directory = disk.origin directory := by
    rw [origin, start, ← origin]
  have way := locate_ok leads.1
  have way' := locate_ok leads'.1
  have held' := leads'.2
  rw [← rest, ← origins] at way way'
  rw [start] at way' held'
  rw [origin_eq] at way'
  have same := createFrom_congr way way' leads.2 held'
  unfold createDirectories
  split
  · rfl
  · cases checkPath directory with
    | error fault => rfl
    | ok _ =>
      dsimp only
      rw [origin_eq, same]

/-- Two trees have files and directories at the same places. -/
def SameShape (tree tree' : Tree) : Prop :=
  ∀ place, (tree'.at? place).map Tree.isDirectory = (tree.at? place).map Tree.isDirectory

theorem step_of_sameShape {tree tree' : Tree} (shape : SameShape tree tree') :
    step tree' = step tree := by
  funext place name
  have same := shape place
  revert same
  unfold step
  rcases tree.at? place with _ | ⟨_ | _⟩ <;> rcases tree'.at? place with _ | ⟨_ | _⟩ <;>
    first | exact fun _ => rfl | exact nofun

theorem locate_of_sameShape (shape : SameShape disk.tree disk'.tree)
    (start : disk'.start = disk.start) (path : OsText) : disk'.locate path = disk.locate path := by
  have origin_eq : disk'.origin path = disk.origin path := by rw [origin, start, ← origin]
  have follow_eq : disk'.follow = disk.follow := by
    funext place names
    rw [follow, follow, step_of_sameShape shape]
  rw [locate, locate, origin_eq, follow_eq]

theorem isDirectory_of_sameShape (shape : SameShape disk.tree disk'.tree)
    (start : disk'.start = disk.start) (path : OsText) :
    disk'.isDirectory path = disk.isDirectory path := by
  unfold isDirectory Disk.find
  rw [locate_of_sameShape shape start]
  cases disk.locate path with
  | error fault => rfl
  | ok place =>
    have same := shape place
    revert same
    dsimp only [bind, Except.bind]
    rcases disk.tree.at? place with _ | tree <;> rcases disk'.tree.at? place with _ | tree' <;>
      simp

theorem readText_of_sameShape (shape : SameShape disk.tree disk'.tree)
    (start : disk'.start = disk.start)
    (same : disk'.tree.kindAt (destination disk.start path) =
      disk.tree.kindAt (destination disk.start path)) :
    disk'.readText path = disk.readText path := by
  rw [readText_eq, readText_eq, locate_of_sameShape shape start]
  cases located : disk.locate path with
  | error fault => rfl
  | ok place =>
    obtain rfl := destination_of_locate located
    dsimp only
    rw [same]

theorem exists_file_iff {tree : Tree} :
    (∃ content, tree.kindAt place = some (.file content)) ↔
      (tree.at? place).map Tree.isDirectory = some false := by
  rw [Tree.kindAt]
  rcases tree.at? place with _ | ⟨_ | _⟩ <;> simp [Tree.kind, Tree.isDirectory]

theorem walk_of_sameShape (proper : disk.tree.isProper = true)
    (proper' : disk'.tree.isProper = true) (shape : SameShape disk.tree disk'.tree)
    (start : disk'.start = disk.start) (path : OsText) : disk'.walk path = disk.walk path := by
  unfold walk Disk.find
  rw [locate_of_sameShape shape start]
  cases disk.locate path with
  | error fault => rfl
  | ok place =>
    have same := shape place
    dsimp only [bind, Except.bind]
    cases there : disk.tree.at? place with
    | none =>
      rw [there, Option.map_none, Option.map_eq_none_iff] at same
      rw [same]
    | some tree =>
      obtain ⟨tree', there', -⟩ : ∃ tree', disk'.tree.at? place = some tree' ∧
          tree'.isDirectory = tree.isDirectory := by
        rw [there] at same
        exact Option.map_eq_some_iff.1 same
      rw [there']
      dsimp only
      rw [Tree.files_eq (Tree.isProper_at? proper there) (Tree.isProper_at? proper' there')]
      intro rest
      rw [← Tree.kindAt_append there, ← Tree.kindAt_append there', exists_file_iff,
        exists_file_iff, shape]

end ReportMigration.Storage
