import ReportMigration.Text.OsText

/-!
# Paths

Paths as they are written: names with slashes between them. A path that starts with a slash is
absolute. A `.` after the first name and a slash too many do not count.
-/

namespace ReportMigration.Path

def slash : UInt8 := 0x2f

def dot : UInt8 := 0x2e

/-- The name of a directory within itself. -/
def here : OsText := ⟨[dot]⟩

/-- The name within a directory of the one above it. -/
def up : OsText := ⟨[dot, dot]⟩

/-- The stretches of a path between its slashes. -/
def segments : List UInt8 → List (List UInt8)
  | [] => [[]]
  | byte :: rest =>
    if byte = slash then [] :: segments rest
    else
      match segments rest with
      | [] => [[byte]]
      | first :: more => (byte :: first) :: more

/-- Writes stretches with slashes between them. -/
def unite (parts : List (List UInt8)) : List UInt8 :=
  [slash].intercalate parts

def names (path : OsText) : List OsText :=
  ((segments path.bytes).filter (!·.isEmpty)).map OsText.mk

def ofNames (names : List OsText) : OsText :=
  ⟨unite (names.map OsText.bytes)⟩

def isAbsolute (path : OsText) : Bool :=
  path.bytes.head? == some slash

/-- Whether a path ends with a slash, so that it can only be that of a directory. -/
def endsWithSlash (path : OsText) : Bool :=
  path.bytes.getLast? == some slash

/-- A path as seen from the directory of another path. -/
def join (base path : OsText) : OsText :=
  if isAbsolute path || base.isEmpty then path
  else if endsWithSlash base then base ++ path
  else base ++ ⟨[slash]⟩ ++ path

/-- The stretches without those at the end that do not count. -/
def trimEnd (parts : List (List UInt8)) : List (List UInt8) :=
  (parts.reverse.dropWhile fun part => part.isEmpty || part == [dot]).reverse

/-- The path of the directory that a path is in. Neither the root nor the empty path has one. -/
def parent (path : OsText) : Option OsText :=
  match segments path.bytes with
  | [] => none
  | [] :: rest =>
    let kept := trimEnd rest
    if kept.isEmpty then none
    else some ⟨slash :: unite (trimEnd kept.dropLast)⟩
  | first :: rest =>
    let kept := trimEnd rest
    if kept.isEmpty then some ⟨[]⟩
    else some ⟨unite (first :: trimEnd kept.dropLast)⟩

def fileName (path : OsText) : Option OsText :=
  (((names path).filter (· != here)).getLast?).filter (· != up)

/-- What follows the last dot of the name of a file. A dot at its start does not count. -/
def extension (name : OsText) : Option OsText :=
  let reversed := name.bytes.reverse
  match reversed.dropWhile (· != dot) with
  | [] => none
  | _ :: stem =>
    if stem.isEmpty then none else some ⟨(reversed.takeWhile (· != dot)).reverse⟩

end ReportMigration.Path
