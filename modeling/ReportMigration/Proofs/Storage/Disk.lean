import ReportMigration.Proofs.Storage.Path
import ReportMigration.Proofs.Storage.Tree
import ReportMigration.Storage.Disk

/-!
# What the operations of a disk leave as it is

Without links a path means the same place whatever the disk holds. A file that is written changes
what that place holds and nothing else, and directories that are there are not created again.
-/

namespace ReportMigration.Storage

/-- The place to which a name leads from another one, whatever is there. -/
def advance (place : Place) (name : OsText) : Place :=
  if name = Path.here then place else if name = Path.up then place.dropLast else place ++ [name]

/-- The place that a path means where relative paths start at a given place. -/
def destination (start : Place) (path : OsText) : Place :=
  (Path.names path).foldl advance (if Path.isAbsolute path then [] else start)

namespace Disk

variable {disk after : Disk} {tree : Tree} {place next : Place} {name path : OsText}
  {names : List OsText}

theorem step_ok (h : step tree place name = .ok next) :
    next = advance place name ∧ tree.kindAt place = some .directory := by
  unfold step at h
  unfold advance
  cases there : tree.at? place with
  | none => simp [there] at h
  | some found =>
    cases found with
    | file content => simp [there] at h
    | directory entries =>
      refine ⟨?_, Tree.kindAt_of_at? there⟩
      simp only [there] at h
      split_ifs at h ⊢ <;> simp_all

theorem foldlM_step_cons :
    (name :: names).foldlM (step tree) place = .ok next ↔
      ∃ middle, step tree place name = .ok middle ∧ names.foldlM (step tree) middle = .ok next := by
  rw [List.foldlM_cons]
  cases step tree place name with
  | error fault => simp [bind, Except.bind]
  | ok middle => simp [bind, Except.bind]

theorem foldlM_step_ok (h : names.foldlM (step tree) place = .ok next) :
    next = names.foldl advance place := by
  induction names generalizing place with
  | nil => exact (Except.ok.inj h).symm
  | cons name rest ih =>
    obtain ⟨middle, first, more⟩ := foldlM_step_cons.1 h
    rw [List.foldl_cons, ← (step_ok first).1]
    exact ih more

theorem foldlM_step_append {more : List OsText} :
    (names ++ more).foldlM (step tree) place = .ok next ↔
      ∃ middle, names.foldlM (step tree) place = .ok middle ∧
        more.foldlM (step tree) middle = .ok next := by
  induction names generalizing place with
  | nil => simp [pure, Except.pure]
  | cons name rest ih =>
    rw [List.cons_append, foldlM_step_cons]
    simp only [ih, foldlM_step_cons]
    constructor
    · rintro ⟨first, hfirst, middle, hmiddle, onwards⟩
      exact ⟨middle, ⟨first, hfirst, hmiddle⟩, onwards⟩
    · rintro ⟨middle, ⟨first, hfirst, hmiddle⟩, onwards⟩
      exact ⟨first, hfirst, middle, hmiddle, onwards⟩

theorem ne_none_of_foldlM_step (h : names.foldlM (step tree) place = .ok next)
    (there : tree.kindAt next ≠ none) : tree.kindAt place ≠ none := by
  cases names with
  | nil => exact Except.ok.inj h ▸ there
  | cons name rest =>
    obtain ⟨middle, first, -⟩ := foldlM_step_cons.1 h
    simp [(step_ok first).2]

theorem above_of_foldlM_step (nonempty : names ≠ []) (h : names.foldlM (step tree) place = .ok next)
    (free : tree.kindAt next ≠ some .directory) :
    ∃ above name, next = above ++ [name] ∧ tree.kindAt above = some .directory ∧
      name ∈ names ∧ name ≠ Path.here ∧ name ≠ Path.up := by
  obtain ⟨most, name, rfl⟩ := (List.eq_nil_or_concat' names).resolve_left nonempty
  obtain ⟨middle, -, last⟩ := foldlM_step_append.1 h
  obtain ⟨there, final, stop⟩ := foldlM_step_cons.1 last
  obtain rfl := Except.ok.inj stop
  obtain ⟨rfl, inside⟩ := step_ok final
  unfold advance at free ⊢
  split_ifs at free ⊢ with dot dots
  · exact absurd inside free
  · obtain rfl | ⟨above, name, rfl⟩ := List.eq_nil_or_concat' middle
    · exact absurd inside free
    · rw [List.dropLast_concat] at free
      have there : tree.kindAt (above ++ [name]) ≠ none := by simp [inside]
      exact absurd (Tree.kindAt_append_cons there) free
  · exact ⟨middle, name, rfl, inside, by simp, dot, dots⟩

theorem follow_ok : disk.follow place names = .ok next ↔
    names.foldlM (step disk.tree) place = .ok next := by
  unfold follow
  cases names.foldlM (step disk.tree) place <;> simp [Except.mapError]

theorem locate_ok (h : disk.locate path = .ok place) :
    (Path.names path).foldlM (step disk.tree) (disk.origin path) = .ok place := by
  unfold locate at h
  cases usable : checkPath path with
  | error fault => simp [usable, bind, Except.bind] at h
  | ok _ =>
    simp only [usable, bind, Except.bind, follow_ok] at h
    split at h
    · obtain ⟨middle, most, last⟩ := foldlM_step_append.1 h
      obtain ⟨there, final, stop⟩ := foldlM_step_cons.1 last
      have same : there = middle := by simpa [advance] using (step_ok final).1
      rw [most, ← same]
      exact stop
    · exact h

theorem destination_of_locate (h : disk.locate path = .ok place) :
    place = destination disk.start path :=
  foldlM_step_ok (locate_ok h)

theorem locate_of_locateFile (h : disk.locateFile path = .ok place) :
    disk.locate path = .ok place ∧ Path.names path ≠ [] := by
  unfold locateFile at h
  unfold locate
  cases usable : checkPath path with
  | error fault => simp [usable, bind, Except.bind] at h
  | ok _ =>
    simp only [usable, bind, Except.bind] at h ⊢
    split at h
    · split at h <;> exact absurd h (by simp)
    · next flat =>
      rw [if_neg flat]
      refine ⟨h, Path.names_ne_nil ?_ (Bool.not_eq_true _ ▸ flat)⟩
      rintro rfl
      exact nomatch usable

theorem find_ok {found : Tree} (h : disk.find path = .ok found) :
    disk.tree.at? (destination disk.start path) = some found ∧
      disk.locate path = .ok (destination disk.start path) := by
  unfold find at h
  cases located : disk.locate path with
  | error fault => simp [located, bind, Except.bind] at h
  | ok place =>
    obtain rfl := destination_of_locate located
    simp only [located, bind, Except.bind] at h
    cases there : disk.tree.at? (destination disk.start path) with
    | none => simp [there] at h
    | some tree => simp_all

theorem exists_of_isDirectory (h : disk.isDirectory path = true) :
    ∃ entries, disk.find path = .ok (.directory entries) := by
  unfold isDirectory at h
  cases found : disk.find path with
  | error fault => simp [found] at h
  | ok tree =>
    cases tree with
    | file content => simp [found, Tree.isDirectory] at h
    | directory entries => exact ⟨entries, rfl⟩

theorem writeContent_ok {content : ByteArray} (h : disk.writeContent path content = .ok after) :
    disk.locate path = .ok (destination disk.start path) ∧ Path.names path ≠ [] ∧
      disk.tree.kindAt (destination disk.start path) ≠ some .directory ∧
      after = { disk with tree := disk.tree.put (destination disk.start path) (.file content) } := by
  unfold writeContent at h
  cases located : disk.locateFile path with
  | error fault => simp [located, bind, Except.bind] at h
  | ok place =>
    obtain ⟨reached, named⟩ := locate_of_locateFile located
    obtain rfl := destination_of_locate reached
    simp only [located, bind, Except.bind] at h
    refine ⟨reached, named, ?_⟩
    split at h
    · simp at h
    · next free =>
      refine ⟨?_, (Except.ok.inj h).symm⟩
      unfold Tree.kindAt
      cases there : disk.tree.at? (destination disk.start path) with
      | none => simp
      | some tree =>
        cases tree with
        | directory entries => exact absurd there (free entries)
        | file content => simp [Tree.kind]

theorem start_writeContent {content : ByteArray} (h : disk.writeContent path content = .ok after) :
    after.start = disk.start := by
  rw [(writeContent_ok h).2.2.2]

theorem kindAt_writeContent_of_ne {content : ByteArray}
    (h : disk.writeContent path content = .ok after) (away : place ≠ destination disk.start path) :
    after.tree.kindAt place = disk.tree.kindAt place := by
  obtain ⟨-, -, free, rfl⟩ := writeContent_ok h
  exact Tree.kindAt_put_of_ne away free

theorem kindAt_writeContent {content : ByteArray}
    (h : disk.writeContent path content = .ok after) :
    after.tree.kindAt (destination disk.start path) = some (.file content) := by
  obtain ⟨reached, named, free, rfl⟩ := writeContent_ok h
  obtain ⟨above, name, ends, inside, -⟩ := above_of_foldlM_step named (locate_ok reached) free
  rw [ends]
  exact Tree.kindAt_put inside _ _

theorem present_writeContent {content : ByteArray} (h : disk.writeContent path content = .ok after)
    (there : disk.tree.kindAt place ≠ none) : after.tree.kindAt place ≠ none := by
  by_cases here : place = destination disk.start path
  · simp [here, kindAt_writeContent h]
  · rwa [kindAt_writeContent_of_ne h here]

theorem kindAt_eq_none_of_isPresent {content : ByteArray} (absent : disk.isPresent path = .ok false)
    (h : disk.writeContent path content = .ok after) :
    disk.tree.kindAt (destination disk.start path) = none := by
  obtain ⟨reached, -⟩ := writeContent_ok h
  unfold isPresent find at absent
  rw [Tree.kindAt_eq_none]
  cases there : disk.tree.at? (destination disk.start path) with
  | none => rfl
  | some tree => simp [reached, there, bind, Except.bind] at absent

theorem kindAt_ne_none_of_isPresent (present : disk.isPresent path = .ok true) :
    disk.tree.kindAt (destination disk.start path) ≠ none := by
  unfold isPresent at present
  cases found : disk.find path with
  | ok tree => simp [Tree.kindAt_of_at? (find_ok found).1]
  | error fault =>
    rw [found] at present
    split at present <;> simp_all

theorem copyFile_ok {source target : OsText} (h : disk.copyFile source target = .ok after) :
    ∃ content, disk.tree.kindAt (destination disk.start source) = some (.file content) ∧
      disk.writeContent target content = .ok after := by
  unfold copyFile at h
  cases found : disk.find source with
  | error fault => simp [found, bind, Except.bind] at h
  | ok tree =>
    cases tree with
    | directory entries => simp [found, bind, Except.bind] at h
    | file content =>
      simp only [found, bind, Except.bind] at h
      exact ⟨content, Tree.kindAt_of_at? (find_ok found).1, h⟩

theorem readText_ok {text : String} (h : disk.readText path = .ok text) :
    ∃ found, disk.find path = .ok found := by
  unfold readText at h
  cases found : disk.find path with
  | error fault => simp [found, bind, Except.bind] at h
  | ok tree => exact ⟨tree, rfl⟩

/-- No directory is created on a way that another tree had to its end, as long as all that it held
is still there. -/
theorem createFrom_of_present {former : Tree} {more : List OsText}
    (present : ∀ place, former.kindAt place ≠ none → tree.kindAt place ≠ none)
    (way : (names ++ more).foldlM (step former) place = .ok next)
    (there : former.kindAt next ≠ none) : (createFrom tree place names).2 = tree := by
  induction names generalizing place with
  | nil => rfl
  | cons name rest ih =>
    obtain ⟨middle, first, onwards⟩ := foldlM_step_cons.1 way
    have kept : tree.kindAt middle ≠ none := present _ (ne_none_of_foldlM_step onwards there)
    unfold createFrom
    cases again : step tree place name with
    | error fault => rfl
    | ok place' =>
      obtain rfl : place' = middle := (step_ok again).1.trans (step_ok first).1.symm
      rw [Ne, Tree.kindAt_eq_none] at kept
      dsimp only
      cases found : tree.at? place' with
      | none => exact absurd found kept
      | some entry =>
        cases entry with
        | file content => rfl
        | directory entries => exact ih onwards

theorem createDirectories_of_present {former : Disk} {directory : OsText}
    (start : disk.start = former.start)
    (present : ∀ place, former.tree.kindAt place ≠ none → disk.tree.kindAt place ≠ none)
    (above : Path.parent path = some directory) {found : Tree} (h : former.find path = .ok found) :
    (disk.createDirectories directory).2 = disk := by
  obtain ⟨there, located⟩ := find_ok h
  obtain ⟨more, rest⟩ := Path.names_parent above
  have way := locate_ok located
  rw [← rest, origin, ← Path.isAbsolute_parent above, ← start, ← origin] at way
  unfold createDirectories
  split
  · rfl
  · split
    · rfl
    · have kept := createFrom_of_present present way
        (by simp [start, Tree.kindAt_of_at? there])
      dsimp only
      rw [kept]

end Disk

end ReportMigration.Storage
