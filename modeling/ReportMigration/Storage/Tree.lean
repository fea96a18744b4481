import ReportMigration.Text.OsText

/-!
# Trees of files

Files and directories as a tree. A place in it is the list of the names that lead there. A walk
meets the entries of a directory in the order of their names and goes into a directory where it
meets it.
-/

namespace ReportMigration.Storage

/-- The names that lead from the root of a tree to a place. -/
abbrev Place := List OsText

/-- A file with its content, or a directory with its named entries. -/
inductive Tree where
  | file (content : ByteArray)
  | directory (entries : List (OsText × Tree))

namespace Tree

def empty : Tree := directory []

def isDirectory : Tree → Bool
  | file _ => false
  | directory _ => true

def entries : Tree → List (OsText × Tree)
  | file _ => []
  | directory found => found

def at? : Tree → Place → Option Tree
  | tree, [] => some tree
  | tree, name :: rest => (tree.entries.lookup name).bind (at? · rest)

/-- Sets the entry of a name, in its old position or after all others. -/
def setEntry (name : OsText) (tree : Tree) : List (OsText × Tree) → List (OsText × Tree)
  | [] => [(name, tree)]
  | (other, old) :: rest =>
    if other = name then (name, tree) :: rest else (other, old) :: setEntry name tree rest

/-- Puts a tree at a place. Nothing happens when the directory of the place is missing. -/
def put : Tree → Place → Tree → Tree
  | _, [], new => new
  | file content, _ :: _, _ => file content
  | directory found, name :: rest, new =>
    match found.lookup name with
    | some old => directory (setEntry name (put old rest new) found)
    | none => directory (if rest.isEmpty then setEntry name new found else found)

def remove : Tree → Place → Tree
  | tree, [] => tree
  | file content, _ :: _ => file content
  | directory found, [name] => directory (found.filter (·.1 != name))
  | directory found, name :: next :: rest =>
    match found.lookup name with
    | some old => directory (setEntry name (remove old (next :: rest)) found)
    | none => directory found

/-- Puts something among named things in the order of their names, before those of its name. -/
def insertByName {α : Type} (item : OsText × α) : List (OsText × α) → List (OsText × α)
  | [] => [item]
  | next :: rest =>
    if next.1 < item.1 then next :: insertByName item rest else item :: next :: rest

def sortByName {α : Type} (items : List (OsText × α)) : List (OsText × α) :=
  items.foldr insertByName []

mutual

/-- The places of all files in a tree, in the order of a walk. -/
def files : Tree → List Place
  | file _ => [[]]
  | directory found =>
    (sortByName (filesOfEntries found)).flatMap fun (name, places) => places.map (name :: ·)

def filesOfEntries : List (OsText × Tree) → List (OsText × List Place)
  | [] => []
  | (name, tree) :: rest => (name, tree.files) :: filesOfEntries rest

end

end Tree

end ReportMigration.Storage
