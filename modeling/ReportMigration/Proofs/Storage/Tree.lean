import Mathlib
import ReportMigration.Storage.Tree

/-!
# What is at the places of a tree

A place holds nothing, a directory, or a file with its content. A file put at a place where no
directory is leaves every other place with what it holds.
-/

namespace ReportMigration.Storage

/-- What a place can hold. -/
inductive Kind where
  | file (content : ByteArray)
  | directory
deriving DecidableEq

namespace Tree

def kind : Tree → Kind
  | file content => .file content
  | directory _ => .directory

/-- What a place holds, if it holds anything. -/
def kindAt (tree : Tree) (place : Place) : Option Kind :=
  (tree.at? place).map kind

variable {tree : Tree} {place other : Place} {name : OsText} {content : ByteArray}

@[simp]
theorem kindAt_nil (tree : Tree) : tree.kindAt [] = some tree.kind :=
  rfl

theorem kindAt_file_cons : (file content).kindAt (name :: place) = none :=
  rfl

theorem kindAt_directory_cons (entries : List (OsText × Tree)) (name : OsText) (place : Place) :
    (directory entries).kindAt (name :: place) = (entries.lookup name).bind (kindAt · place) := by
  rw [kindAt, at?, Option.map_bind]
  rfl

theorem kindAt_of_at? {found : Tree} (h : tree.at? place = some found) :
    tree.kindAt place = some found.kind := by
  rw [kindAt, h, Option.map_some]

theorem kindAt_eq_none : tree.kindAt place = none ↔ tree.at? place = none := by
  rw [kindAt, Option.map_eq_none_iff]

theorem kindAt_append_cons (h : tree.kindAt (place ++ name :: other) ≠ none) :
    tree.kindAt place = some .directory := by
  induction place generalizing tree with
  | nil =>
    cases tree with
    | file content => exact absurd kindAt_file_cons h
    | directory entries => rfl
  | cons first rest ih =>
    cases tree with
    | file content => exact absurd kindAt_file_cons h
    | directory entries =>
      rw [List.cons_append, kindAt_directory_cons] at h
      rw [kindAt_directory_cons]
      cases found : entries.lookup first with
      | none => simp [found] at h
      | some inner =>
        rw [found] at h
        exact ih h

theorem lookup_entry (entry : OsText × Tree) (rest : List (OsText × Tree)) (name : OsText) :
    (entry :: rest).lookup name = if name = entry.1 then some entry.2 else rest.lookup name := by
  rw [List.lookup_cons]
  by_cases here : name = entry.1
  · simp [here]
  · rw [if_neg here, beq_false_of_ne here]

theorem lookup_setEntry (name other : OsText) (new : Tree) (entries : List (OsText × Tree)) :
    (setEntry name new entries).lookup other =
      if other = name then some new else entries.lookup other := by
  induction entries with
  | nil => rw [setEntry, lookup_entry, List.lookup_nil]
  | cons entry rest ih =>
    by_cases here : entry.1 = name
    · rw [setEntry, if_pos here, lookup_entry, lookup_entry, here]
      split <;> rfl
    · rw [setEntry, if_neg here, lookup_entry, lookup_entry, ih]
      by_cases first : other = entry.1
      · simp [first, here]
      · simp [first]

theorem kindAt_put_entry {entries : List (OsText × Tree)} {first : OsText} {old : Tree}
    (found : entries.lookup first = some old) (rest : Place) (new : Tree) (inner : Place) :
    ((directory entries).put (first :: rest) new).kindAt (first :: inner) =
      (old.put rest new).kindAt inner := by
  simp [put, found, kindAt_directory_cons, lookup_setEntry]

/-- The entries of a directory that has none of a name stay, but for a new entry of that name. -/
theorem kindAt_put_of_lookup_none {entries : List (OsText × Tree)} {first : OsText}
    (missing : entries.lookup first = none) (away : other ≠ first :: place) :
    ((directory entries).put (first :: place) (file content)).kindAt other =
      (directory entries).kindAt other := by
  cases place with
  | cons next more => simp only [put, missing, List.isEmpty_cons, Bool.false_eq_true, if_false]
  | nil =>
    cases other with
    | nil => simp only [put, missing, kindAt_nil, kind]
    | cons name inner =>
      simp only [put, missing, kindAt_directory_cons, List.isEmpty_nil, if_true, lookup_setEntry]
      split
      · next same =>
        subst same
        have deeper : inner ≠ [] := fun nothing => away (by rw [nothing])
        obtain ⟨next, more, rfl⟩ := List.exists_cons_of_ne_nil deeper
        rw [missing]
        rfl
      · rfl

theorem kindAt_put_of_ne (away : other ≠ place) (room : tree.kindAt place ≠ some .directory) :
    (tree.put place (file content)).kindAt other = tree.kindAt other := by
  induction place generalizing tree other with
  | nil =>
    cases tree with
    | directory entries => exact absurd rfl room
    | file old =>
      obtain ⟨name, rest, rfl⟩ := List.exists_cons_of_ne_nil away
      rfl
  | cons first rest ih =>
    cases tree with
    | file old => rfl
    | directory entries =>
      cases found : entries.lookup first with
      | none => exact kindAt_put_of_lookup_none found away
      | some old =>
        rw [kindAt_directory_cons, found] at room
        cases other with
        | nil => simp only [put, found, kindAt_nil, kind]
        | cons name inner =>
          by_cases same : name = first
          · subst same
            rw [kindAt_put_entry found, kindAt_directory_cons, found]
            exact ih (fun same => away (by rw [same])) room
          · simp [put, found, kindAt_directory_cons, lookup_setEntry, same]

theorem kindAt_put (above : tree.kindAt place = some .directory) (name : OsText) (new : Tree) :
    (tree.put (place ++ [name]) new).kindAt (place ++ [name]) = some new.kind := by
  induction place generalizing tree with
  | nil =>
    cases tree with
    | file content => simp [kind] at above
    | directory entries =>
      cases found : entries.lookup name <;>
        simp [put, found, kindAt_directory_cons, lookup_setEntry]
  | cons first rest ih =>
    cases tree with
    | file content => simp [kindAt_file_cons] at above
    | directory entries =>
      rw [kindAt_directory_cons] at above
      cases found : entries.lookup first with
      | none => simp [found] at above
      | some inner =>
        rw [found] at above
        rw [List.cons_append, kindAt_put_entry found]
        exact ih above

theorem ne_nil_of_mem_files {entries : List (OsText × Tree)}
    (member : place ∈ (directory entries).files) : place ≠ [] := by
  rintro rfl
  simp [files] at member

end Tree

end ReportMigration.Storage
