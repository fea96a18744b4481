import ReportMigration.Proofs.Storage.Disk
import ReportMigration.Proofs.Storage.Files

/-!
# Names in paths

The path of what a walk meets is that of its root with one name after the other behind it, and it
leads from the root to the place of these names.
-/

namespace ReportMigration.Storage

variable {name path : OsText} {place : Place}

theorem names_ofNames_eq (proper : ∀ name ∈ place, isName name = true) :
    Path.names (Path.ofNames place) = place :=
  Path.names_ofNames (fun name member => (isName_iff.1 (proper name member)).1)
    fun name member => (isName_iff.1 (proper name member)).2.2.2

theorem isAbsolute_ofNames_eq (proper : ∀ name ∈ place, isName name = true) :
    Path.isAbsolute (Path.ofNames place) = false :=
  Path.isAbsolute_ofNames (fun name member => (isName_iff.1 (proper name member)).1)
    fun name member => (isName_iff.1 (proper name member)).2.2.2

/-- A name and what comes below it may be put behind a path at once. -/
theorem join_join (named : isName name = true) (relative : Path.isAbsolute path = false)
    (root : OsText) :
    Path.join (Path.join root name) path = Path.join root (name ++ ⟨[Path.slash]⟩ ++ path) := by
  obtain ⟨nonempty, -, -, plain⟩ := isName_iff.1 named
  have spelt : name.bytes ≠ [] := fun nothing => nonempty (OsText.bytes_inj.1 nothing)
  obtain ⟨front, -, joined⟩ := Path.exists_join root spelt
  have first : Path.join root name = ⟨front ++ name.bytes⟩ := by
    simpa using joined ⟨[]⟩
  have whole : Path.join root (name ++ (⟨[Path.slash]⟩ ++ path)) =
      (⟨front ++ name.bytes⟩ : OsText) ++ ⟨[Path.slash]⟩ ++ path := by
    rw [joined, ← OsText.bytes_inj]
    simp
  have regroup : name ++ ⟨[Path.slash]⟩ ++ path = name ++ (⟨[Path.slash]⟩ ++ path) := by
    rw [← OsText.bytes_inj]
    simp
  have something : (⟨front ++ name.bytes⟩ : OsText).isEmpty = false := by
    simp [OsText.isEmpty, spelt]
  rw [first, regroup, whole, Path.join, relative, something, Path.endsWithSlash_append plain spelt]
  rfl

/-- One name after the other behind the path of a root is the path of their place behind it. -/
theorem foldl_join_eq (below : place ≠ []) (proper : ∀ name ∈ place, isName name = true)
    (root : OsText) : place.foldl Path.join root = Path.join root (Path.ofNames place) := by
  induction place generalizing root with
  | nil => exact absurd rfl below
  | cons name rest ih =>
    obtain ⟨named, others⟩ := List.forall_mem_cons.1 proper
    by_cases last : rest = []
    · subst last
      simp [Path.ofNames, Path.unite, List.intercalate]
    · have spelt : Path.ofNames (name :: rest) = name ++ ⟨[Path.slash]⟩ ++ Path.ofNames rest := by
        rw [Path.ofNames, List.map_cons, Path.unite_cons (by simpa using last), ← OsText.bytes_inj]
        simp [Path.ofNames]
      rw [List.foldl_cons, ih last others, join_join named (isAbsolute_ofNames_eq others),
        spelt]

theorem foldl_advance_names {names : Place} (proper : ∀ name ∈ names, isName name = true)
    (place : Place) : names.foldl advance place = place ++ names := by
  induction names generalizing place with
  | nil => exact (List.append_nil place).symm
  | cons name rest ih =>
    obtain ⟨first, others⟩ := List.forall_mem_cons.1 proper
    have next : advance place name = place ++ [name] := by
      obtain ⟨-, dot, dots, -⟩ := isName_iff.1 first
      rw [advance, if_neg dot, if_neg dots]
    rw [List.foldl_cons, ih others, next, List.append_assoc, List.singleton_append]

theorem destination_join_ofNames {names : Place} (proper : ∀ name ∈ names, isName name = true)
    (start : Place) (root : OsText) :
    destination start (Path.join root (Path.ofNames names)) = destination start root ++ names := by
  have relative := isAbsolute_ofNames_eq proper
  rw [destination, Path.names_join relative, Path.isAbsolute_join relative, List.foldl_append,
    names_ofNames_eq proper, foldl_advance_names proper, ← destination]

theorem isProper_of_isName (named : isName name = true) : Path.IsProper name.bytes := by
  obtain ⟨nonempty, here, up, -⟩ := isName_iff.1 named
  exact ⟨mt OsText.bytes_inj.1 nonempty, mt OsText.bytes_inj.1 here, mt OsText.bytes_inj.1 up⟩

theorem isName_append {suffix : OsText} (named : isName name = true)
    (dotted : suffix.bytes.head? = some Path.dot) (flat : Path.slash ∉ suffix.bytes) :
    isName (name ++ suffix) = true := by
  obtain ⟨nonempty, here, up, plain⟩ := isName_iff.1 named
  obtain ⟨bytes⟩ := name
  obtain ⟨rest, spelt⟩ := List.head?_eq_some_iff.1 dotted
  obtain ⟨byte, more, rfl⟩ : ∃ byte more, bytes = byte :: more :=
    List.exists_cons_of_ne_nil fun nothing => nonempty (nothing ▸ rfl)
  have spelling : ∀ {other : OsText}, ⟨byte :: more⟩ ++ suffix = other →
      byte :: (more ++ Path.dot :: rest) = other.bytes := by
    rintro _ rfl
    simp [spelt]
  refine isName_iff.2 ⟨fun same => ?_, fun same => ?_, fun same => ?_, ?_⟩
  · exact nomatch spelling same
  · obtain ⟨-, nothing⟩ := List.cons.inj (spelling same)
    exact absurd nothing (by simp)
  · obtain ⟨rfl, last⟩ := List.cons.inj (spelling same)
    cases more with
    | nil => exact here rfl
    | cons next others => exact absurd (List.cons.inj last).2 (by simp)
  · rw [OsText.bytes_append, List.mem_append, not_or]
    exact ⟨plain, flat⟩

end ReportMigration.Storage
