import ReportMigration.Failure
import ReportMigration.Storage.FileSystem

/-!
# Disks

A disk holds a tree of files and knows the directory in which relative paths start. Its operations
refuse what an operating system refuses, for the same reasons and in the same order.
-/

namespace ReportMigration.Storage

/-- A tree of files, and the place of the directory in which relative paths start. -/
structure Disk where
  tree : Tree
  start : Place

namespace Disk

/-- The most bytes that a name may have. -/
def longestName : Nat := 255

/-- The number of bytes from which on a path is too long. -/
def pathLimit : Nat := 4096

/-- Goes by a name from a directory to a place, where there need not be anything. -/
def step (tree : Tree) (place : Place) (name : OsText) : Except OsFault Place :=
  match tree.at? place with
  | none => .error .notFound
  | some (.file _) => .error .notADirectory
  | some (.directory _) =>
    if name = Path.here then .ok place
    else if name = Path.up then .ok place.dropLast
    else if longestName < name.bytes.length then .error .nameTooLong
    else .ok (place ++ [name])

/-- A path that no operation can use is refused. -/
def checkPath (path : OsText) : Except IoFault Unit :=
  if path.bytes.contains 0 then .error .nulInPath
  else if path.isEmpty then .error .notFound
  else if pathLimit ≤ path.bytes.length then .error (.os .nameTooLong)
  else .ok ()

def origin (disk : Disk) (path : OsText) : Place :=
  if Path.isAbsolute path then [] else disk.start

/-- Goes by names from a place to another one. -/
def follow (disk : Disk) (place : Place) (names : List OsText) : Except IoFault Place :=
  (names.foldlM (step disk.tree) place).mapError .os

/-- The place to which a path leads. One that ends with a slash leads into a directory. -/
def locate (disk : Disk) (path : OsText) : Except IoFault Place := do
  checkPath path
  let names := Path.names path
  disk.follow (disk.origin path) (if Path.endsWithSlash path then names ++ [Path.here] else names)

/-- The place to which a path leads when a file is to be there afterwards. -/
def locateFile (disk : Disk) (path : OsText) : Except IoFault Place := do
  checkPath path
  let names := Path.names path
  if Path.endsWithSlash path then
    let _ ← disk.follow (disk.origin path) (names.dropLast ++ [Path.here])
    .error (.os .isADirectory)
  else disk.follow (disk.origin path) names

def find (disk : Disk) (path : OsText) : Except IoFault Tree := do
  let place ← disk.locate path
  match disk.tree.at? place with
  | none => .error .notFound
  | some tree => .ok tree

def readText (disk : Disk) (path : OsText) : Except IoFault String := do
  match ← disk.find path with
  | .directory _ => .error (.os .isADirectory)
  | .file content =>
    match String.fromUTF8? content with
    | none => .error .invalidUtf8
    | some text => .ok text

def writeContent (disk : Disk) (path : OsText) (content : ByteArray) : Except IoFault Disk := do
  let place ← disk.locateFile path
  match disk.tree.at? place with
  | some (.directory _) => .error (.os .isADirectory)
  | _ => .ok { disk with tree := disk.tree.put place (.file content) }

def copyFile (disk : Disk) (source target : OsText) : Except IoFault Disk := do
  match ← disk.find source with
  | .directory _ => .error .notARegularFile
  | .file content => disk.writeContent target content

/-- Goes by names from a place and creates the directories that are missing. Those created before a
fault stay. -/
def createFrom (tree : Tree) (place : Place) : List OsText → Except OsFault Unit × Tree
  | [] => (.ok (), tree)
  | name :: rest =>
    match step tree place name with
    | .error fault => (.error fault, tree)
    | .ok next =>
      match tree.at? next with
      | none => createFrom (tree.put next Tree.empty) next rest
      | some (.directory _) => createFrom tree next rest
      | some (.file _) => (.error (if rest.isEmpty then .alreadyExists else .notADirectory), tree)

/-- Creates a directory and those it is in, as far as they are missing. -/
def createDirectories (disk : Disk) (path : OsText) : Except IoFault Unit × Disk :=
  if path.isEmpty then (.ok (), disk)
  else
    match checkPath path with
    | .error fault => (.error fault, disk)
    | .ok () =>
      let (result, tree) := createFrom disk.tree (disk.origin path) (Path.names path)
      (result.mapError .os, { disk with tree := tree })

/-- Whether there is something to which a path leads. -/
def isPresent (disk : Disk) (path : OsText) : Except IoFault Bool :=
  match disk.find path with
  | .ok _ => .ok true
  | .error (.os .notFound) => .ok false
  | .error fault => .error fault

def isDirectory (disk : Disk) (path : OsText) : Bool :=
  match disk.find path with
  | .ok tree => tree.isDirectory
  | .error _ => false

def walk (disk : Disk) (path : OsText) : List Found :=
  match disk.find path with
  | .ok tree => tree.files.map .file
  | .error fault => [.unreadable s!"IO error for operation on {path}: {fault.message}"]

end Disk

end ReportMigration.Storage
