import Mathlib
import ReportMigration.Proofs.Storage.Tree
import ReportMigration.Proofs.Text.OsText
import ReportMigration.Storage.Path

/-!
# The files of a tree

In a tree whose directories hold each name once, a walk meets exactly the places that hold a file,
each once and in their order. So two trees of the same shape have the same files.
-/

namespace ReportMigration.Storage

/-- Whether some bytes can be the name of an entry. -/
def isName (name : OsText) : Bool :=
  name != ⟨[]⟩ && name != Path.here && name != Path.up && !name.bytes.contains Path.slash

theorem isName_iff {name : OsText} : isName name = true ↔
    name ≠ ⟨[]⟩ ∧ name ≠ Path.here ∧ name ≠ Path.up ∧ Path.slash ∉ name.bytes := by
  simp [isName, and_assoc]

namespace Tree

mutual

/-- Whether the entries of each directory have names, each another one. -/
def isProper : Tree → Bool
  | file _ => true
  | directory found => decide (found.map Prod.fst).Nodup && areProper found

def areProper : List (OsText × Tree) → Bool
  | [] => true
  | (name, tree) :: rest => isName name && tree.isProper && areProper rest

end

variable {tree other : Tree} {place : Place} {name : OsText} {entries : List (OsText × Tree)}

theorem areProper_iff : areProper entries = true ↔
    ∀ entry ∈ entries, isName entry.1 = true ∧ entry.2.isProper = true := by
  induction entries with
  | nil => simp [areProper]
  | cons entry rest ih =>
    rw [areProper, Bool.and_eq_true, Bool.and_eq_true, ih, List.forall_mem_cons]

theorem isProper_directory : (directory entries).isProper = true ↔
    (entries.map Prod.fst).Nodup ∧
      ∀ entry ∈ entries, isName entry.1 = true ∧ entry.2.isProper = true := by
  rw [isProper, Bool.and_eq_true, decide_eq_true_eq, areProper_iff]

theorem mem_of_lookup (h : entries.lookup name = some tree) : (name, tree) ∈ entries := by
  induction entries with
  | nil => cases h
  | cons entry rest ih =>
    rw [lookup_entry] at h
    split at h
    · next here =>
      obtain rfl := Option.some.inj h
      rw [here]
      exact List.mem_cons_self
    · exact List.mem_cons_of_mem _ (ih h)

theorem lookup_eq_some_iff (h : (entries.map Prod.fst).Nodup) :
    entries.lookup name = some tree ↔ (name, tree) ∈ entries := by
  refine ⟨mem_of_lookup, fun member => ?_⟩
  induction entries with
  | nil => cases member
  | cons entry rest ih =>
    obtain ⟨fresh, others⟩ := List.nodup_cons.1 h
    rw [lookup_entry]
    rcases List.mem_cons.1 member with rfl | member
    · exact if_pos rfl
    · have elsewhere : name ≠ entry.1 := fun same =>
        fresh (same ▸ List.mem_map.2 ⟨_, member, rfl⟩)
      rw [if_neg elsewhere]
      exact ih others member

theorem isName_of_kindAt (proper : tree.isProper = true) (there : tree.kindAt place ≠ none) :
    ∀ name ∈ place, isName name = true := by
  induction place generalizing tree with
  | nil => exact List.forall_mem_nil _
  | cons name rest ih =>
    cases tree with
    | file content => exact absurd kindAt_file_cons there
    | directory entries =>
      rw [kindAt_directory_cons] at there
      cases found : entries.lookup name with
      | none => simp [found] at there
      | some inner =>
        rw [found] at there
        obtain ⟨named, deeper⟩ := (isProper_directory.1 proper).2 _ (mem_of_lookup found)
        exact List.forall_mem_cons.2 ⟨named, ih deeper there⟩

theorem mem_setEntry {new : Tree} {entry : OsText × Tree} (h : entry ∈ setEntry name new entries) :
    entry = (name, new) ∨ entry ∈ entries := by
  induction entries with
  | nil => exact .inl (List.mem_singleton.1 h)
  | cons first rest ih =>
    rw [setEntry] at h
    split at h
    · exact (List.mem_cons.1 h).imp_right (List.mem_cons_of_mem _)
    · rcases List.mem_cons.1 h with rfl | inside
      · exact .inr List.mem_cons_self
      · exact (ih inside).imp_right (List.mem_cons_of_mem _)

theorem nodup_setEntry (new : Tree) (distinct : (entries.map Prod.fst).Nodup) :
    ((setEntry name new entries).map Prod.fst).Nodup := by
  induction entries with
  | nil => exact List.nodup_singleton name
  | cons first rest ih =>
    obtain ⟨fresh, others⟩ := List.nodup_cons.1 distinct
    rw [setEntry]
    split
    · next same => exact List.nodup_cons.2 ⟨same ▸ fresh, others⟩
    · next apart =>
      refine List.nodup_cons.2 ⟨fun inside => ?_, ih others⟩
      obtain ⟨entry, member, same⟩ := List.mem_map.1 inside
      rcases mem_setEntry member with rfl | old
      · exact apart same.symm
      · exact fresh (same ▸ List.mem_map_of_mem old)

theorem isProper_setEntry {new : Tree} (proper : (directory entries).isProper = true)
    (named : isName name = true) (inner : new.isProper = true) :
    (directory (setEntry name new entries)).isProper = true := by
  obtain ⟨distinct, all⟩ := isProper_directory.1 proper
  refine isProper_directory.2 ⟨nodup_setEntry new distinct, fun entry member => ?_⟩
  rcases mem_setEntry member with rfl | old
  · exact ⟨named, inner⟩
  · exact all entry old

theorem isProper_put {new : Tree} (proper : tree.isProper = true)
    (names : ∀ name ∈ place, isName name = true) (inner : new.isProper = true) :
    (tree.put place new).isProper = true := by
  induction place generalizing tree with
  | nil => exact inner
  | cons name rest ih =>
    obtain ⟨named, others⟩ := List.forall_mem_cons.1 names
    cases tree with
    | file content => exact proper
    | directory entries =>
      cases found : entries.lookup name with
      | some old =>
        have below := ((isProper_directory.1 proper).2 _ (mem_of_lookup found)).2
        simpa only [put, found] using isProper_setEntry proper named (ih below others)
      | none =>
        simp only [put, found]
        split
        · exact isProper_setEntry proper named inner
        · exact proper

variable {α : Type} {item : OsText × α} {items : List (OsText × α)}

theorem perm_insertByName (item : OsText × α) (items : List (OsText × α)) :
    (insertByName item items).Perm (item :: items) := by
  induction items with
  | nil => exact .refl _
  | cons next rest ih =>
    rw [insertByName]
    split
    · exact (ih.cons next).trans (.swap item next rest)
    · exact .refl _

theorem perm_sortByName (items : List (OsText × α)) : (sortByName items).Perm items := by
  induction items with
  | nil => exact .refl _
  | cons item rest ih => exact (perm_insertByName item _).trans (ih.cons item)

theorem pairwise_insertByName (h : items.Pairwise fun a b => a.1 ≤ b.1) :
    (insertByName item items).Pairwise fun a b => a.1 ≤ b.1 := by
  induction items with
  | nil => exact List.pairwise_singleton _ _
  | cons next rest ih =>
    obtain ⟨first, others⟩ := List.pairwise_cons.1 h
    rw [insertByName]
    split
    · next before =>
      refine List.pairwise_cons.2 ⟨fun later member => ?_, ih others⟩
      rcases List.mem_cons.1 ((perm_insertByName item rest).mem_iff.1 member) with rfl | member
      · exact le_of_lt before
      · exact first later member
    · next behind =>
      have least : item.1 ≤ next.1 := not_lt.1 behind
      refine List.pairwise_cons.2 ⟨List.forall_mem_cons.2 ⟨least, fun later member => ?_⟩, h⟩
      exact least.trans (first later member)

theorem pairwise_sortByName (items : List (OsText × α)) :
    (sortByName items).Pairwise fun a b => a.1 ≤ b.1 := by
  induction items with
  | nil => exact List.Pairwise.nil
  | cons item rest ih => exact pairwise_insertByName ih

theorem pairwise_sortByName_lt (distinct : (items.map Prod.fst).Nodup) :
    (sortByName items).Pairwise fun a b => a.1 < b.1 := by
  have fresh : (sortByName items).Pairwise fun a b => a.1 ≠ b.1 :=
    List.pairwise_map.1 (((perm_sortByName items).map Prod.fst).nodup_iff.2 distinct)
  exact ((pairwise_sortByName items).and fresh).imp fun h => lt_of_le_of_ne h.1 h.2

theorem filesOfEntries_eq (entries : List (OsText × Tree)) :
    filesOfEntries entries = entries.map fun entry => (entry.1, entry.2.files) := by
  induction entries with
  | nil => rfl
  | cons entry rest ih => rw [filesOfEntries, ih, List.map_cons]

theorem mem_files_directory : place ∈ (directory entries).files ↔
    ∃ name inner, (name, inner) ∈ entries ∧ ∃ rest ∈ inner.files, place = name :: rest := by
  rw [files, List.mem_flatMap]
  simp only [(perm_sortByName _).mem_iff, filesOfEntries_eq, List.mem_map]
  constructor
  · rintro ⟨_, ⟨⟨name, inner⟩, member, rfl⟩, rest, hrest, rfl⟩
    exact ⟨name, inner, member, rest, hrest, rfl⟩
  · rintro ⟨name, inner, member, rest, hrest, rfl⟩
    exact ⟨_, ⟨⟨name, inner⟩, member, rfl⟩, rest, hrest, rfl⟩

theorem mem_files_iff (proper : tree.isProper = true) :
    place ∈ tree.files ↔ ∃ content, tree.kindAt place = some (.file content) := by
  induction place generalizing tree with
  | nil =>
    cases tree with
    | file content => simp [files, kind]
    | directory entries => simp [mem_files_directory, kind]
  | cons name rest ih =>
    cases tree with
    | file content => simp [files, kindAt_file_cons]
    | directory entries =>
      obtain ⟨distinct, inner⟩ := isProper_directory.1 proper
      rw [mem_files_directory, kindAt_directory_cons]
      constructor
      · rintro ⟨_, tree, member, _, met, same⟩
        obtain ⟨rfl, rfl⟩ := List.cons.inj same
        rw [(lookup_eq_some_iff distinct).2 member]
        exact (ih (inner _ member).2).1 met
      · rintro ⟨content, there⟩
        obtain ⟨tree, found, there⟩ := Option.bind_eq_some_iff.1 there
        have member := mem_of_lookup found
        exact ⟨name, tree, member, rest, (ih (inner _ member).2).2 ⟨content, there⟩, rfl⟩

mutual

theorem pairwise_files : ∀ tree : Tree, tree.isProper = true → tree.files.Pairwise (· < ·)
  | file content, _ => List.pairwise_singleton _ _
  | directory entries, proper => by
    obtain ⟨distinct, -⟩ := isProper_directory.1 proper
    have sorted := pairwise_filesOfEntries entries (isProper_directory.1 proper).2
    rw [files, List.pairwise_flatMap]
    refine ⟨fun item member => ?_, ?_⟩
    · refine List.pairwise_map.2 ((sorted item ((perm_sortByName _).mem_iff.1 member)).imp ?_)
      exact fun before => List.cons_lt_cons_iff.2 (.inr ⟨rfl, before⟩)
    · have names : ((filesOfEntries entries).map Prod.fst).Nodup := by
        rw [filesOfEntries_eq, List.map_map]
        exact distinct
      refine (pairwise_sortByName_lt names).imp fun before => ?_
      intro first hfirst second hsecond
      obtain ⟨rest, -, rfl⟩ := List.mem_map.1 hfirst
      obtain ⟨rest', -, rfl⟩ := List.mem_map.1 hsecond
      exact List.cons_lt_cons_iff.2 (.inl before)

theorem pairwise_filesOfEntries : ∀ entries : List (OsText × Tree),
    (∀ entry ∈ entries, isName entry.1 = true ∧ entry.2.isProper = true) →
      ∀ item ∈ filesOfEntries entries, item.2.Pairwise (· < ·)
  | [], _ => by simp [filesOfEntries]
  | (name, tree) :: rest, proper => by
    obtain ⟨first, others⟩ := List.forall_mem_cons.1 proper
    rw [filesOfEntries, List.forall_mem_cons]
    exact ⟨pairwise_files tree first.2, pairwise_filesOfEntries rest others⟩

end

theorem files_eq (proper : tree.isProper = true) (proper' : other.isProper = true)
    (same : ∀ place, (∃ content, tree.kindAt place = some (.file content)) ↔
      ∃ content, other.kindAt place = some (.file content)) : tree.files = other.files := by
  refine (pairwise_files tree proper).sortedLT.eq_of_mem_iff
    (pairwise_files other proper').sortedLT fun place => ?_
  rw [mem_files_iff proper, mem_files_iff proper', same]

theorem at?_append (tree : Tree) (place rest : Place) :
    tree.at? (place ++ rest) = (tree.at? place).bind (at? · rest) := by
  induction place generalizing tree with
  | nil => rfl
  | cons name place ih =>
    rw [List.cons_append, at?, at?, Option.bind_assoc]
    exact congrArg _ (funext fun inner => ih inner)

theorem kindAt_append {inner : Tree} (h : tree.at? place = some inner) (rest : Place) :
    tree.kindAt (place ++ rest) = inner.kindAt rest := by
  rw [kindAt, at?_append, h]
  rfl

theorem isProper_at? {inner : Tree} (proper : tree.isProper = true)
    (h : tree.at? place = some inner) : inner.isProper = true := by
  induction place generalizing tree with
  | nil =>
    obtain rfl := Option.some.inj h
    exact proper
  | cons name rest ih =>
    cases tree with
    | file content => cases h
    | directory entries =>
      obtain ⟨next, found, h⟩ := Option.bind_eq_some_iff.1 h
      exact ih ((isProper_directory.1 proper).2 _ (mem_of_lookup found)).2 h

end Tree

end ReportMigration.Storage
