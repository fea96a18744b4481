import ReportMigration.Monitor
import ReportMigration.Program.Conversion
import ReportMigration.Program.Migration
import Std.Time.DateTime

/-!
# The programs

Runs the programs on the machine at hand. The name under which the program is started decides
whether it converts a single statement or migrates a directory.
-/

namespace ReportMigration

open Storage

/-- What the programs keep while they run: how they log, if the log is open, and the time of their
start in nanoseconds. -/
structure Session where
  style : IO.Ref (Option LogStyle)
  start : Nat

abbrev InSession := ReaderT Session IO

namespace InSession

def errorCode : IO.Error → Nat
  | .alreadyExists _ code _ | .noFileOrDirectory _ code _ | .invalidArgument _ code _
  | .permissionDenied _ code _ | .resourceExhausted _ code _ | .inappropriateType _ code _
  | .noSuchThing _ code _ | .interrupted _ code _ => code.toNat
  | .otherError code _ | .resourceBusy code _ | .resourceVanished code _
  | .unsupportedOperation code _ | .hardwareFault code _ | .unsatisfiedConstraints code _
  | .illegalOperation code _ | .protocolError code _ | .timeExpired code _ => code.toNat
  | .unexpectedEof | .userError _ => 0

/-- The fault behind an error of the system. Some operations give its number below zero, as a number
of 32 bits. -/
def faultOf (failure : IO.Error) : IoFault :=
  let known : List OsFault :=
    [.notFound, .permissionDenied, .alreadyExists, .notADirectory, .isADirectory, .nameTooLong]
  let code := errorCode failure
  match known.find? fun fault => fault.code == code || fault.code + code == 4294967296 with
  | some fault => .os fault
  | none => .other (toString failure)

/-- Does with a path what the system may refuse. Paths that are no texts cannot be given to it. -/
def attempt {α : Type} (path : OsText) (action : String → IO α) : ExceptT IoFault InSession α :=
  ExceptT.mk fun _ => do
    if path.bytes.contains 0 then return .error .nulInPath
    if path.isEmpty then return .error .notFound
    let some text := path.toText? | return .error (.other s!"{path} is no text")
    try return .ok (← action text)
    catch failure => return .error (faultOf failure)

def decodeText (content : ByteArray) : ExceptT IoFault InSession String :=
  match String.fromUTF8? content with
  | some text => pure text
  | none => throw .invalidUtf8

/-- What a path leads to, as an entry of the directory in which relative paths start. -/
def entryAt (path : String) : IO.FS.DirEntry := ⟨".", path⟩

def leadsToDirectory (path : String) : IO Bool :=
  (entryAt path).path.isDir

/-- Walks through a directory at a place below the root of the walk. -/
partial def walkFrom (directory : IO.FS.DirEntry) (place : Place) : IO (List Found) := do
  let entries ← directory.path.readDir
  let named := Tree.sortByName (entries.toList.map fun entry => (.ofText entry.fileName, entry))
  let found ← named.mapM fun (name, entry) => do
    let below := place ++ [name]
    try
      match (← entry.path.symlinkMetadata).type with
      | .file => return [.file below]
      | .dir => walkFrom entry below
      | _ => return []
    catch failure =>
      return [.unreadable
        s!"IO error for operation on {Path.ofNames below}: {(faultOf failure).message}"]
  return found.flatten

/-- Walks through what a path leads to. -/
def walk (path : OsText) : IO (List Found) := do
  try
    let entry := entryAt path.display
    match (← entry.path.metadata).type with
    | .dir => walkFrom entry []
    | .file => return [.file []]
    | _ => return []
  catch failure =>
    return [.unreadable s!"IO error for operation on {path}: {(faultOf failure).message}"]

instance : FileSystem InSession where
  readText path := do decodeText (← attempt path fun path => IO.FS.readBinFile path)
  writeText path text := attempt path fun path => IO.FS.writeBinFile path text.toUTF8
  copyFile source target := do
    if ← attempt source leadsToDirectory then throw .notARegularFile
    let content ← attempt source fun source => IO.FS.readBinFile source
    attempt target fun target => IO.FS.writeBinFile target content
  createDirectories path :=
    if path.isEmpty then pure () else attempt path fun path => IO.FS.createDirAll path
  isPresent path := ExceptT.mk fun session => do
    match ← (attempt path fun path => discard (entryAt path).path.metadata).run session with
    | .ok () => return .ok true
    | .error (.os .notFound) => return .ok false
    | .error fault => return .error fault
  isDirectory path := fun _ => leadsToDirectory path.display
  walk path := fun _ => walk path

def now : IO Report.Timestamp := do
  let elapsed := (← Std.Time.Timestamp.now).toNanosecondsSinceUnixEpoch.val
  return ⟨elapsed.fdiv 1000000000, (elapsed.fmod 1000000000).toNat⟩

/-- The number after a name in the description of the program that the system keeps. -/
def numberAfter (name : String) (description : String) : Nat :=
  match (description.splitOn name)[1]? with
  | none => 0
  | some rest =>
    let digits := (rest.toList.dropWhile (!·.isDigit)).takeWhile (·.isDigit)
    digits.foldl (fun n c => 10 * n + (c.toNat - 48)) 0

/-- What the program uses, from the descriptions of it that the system keeps. The time that the
processor gave to it stands there in hundredths of a second. -/
def usage (session : Session) : IO Usage := do
  let elapsed := (← IO.monoNanosNow) - session.start
  let status ← IO.FS.readFile "/proc/self/status"
  let times := ((← IO.FS.readFile "/proc/self/stat").splitOn " ").map (·.toNat?.getD 0)
  let busy := times.getD 13 0 + times.getD 14 0
  return ⟨busy * 10000000 * 1000 / (elapsed + 1), numberAfter "VmRSS:" status / 1024,
    numberAfter "VmHWM:" status / 1024, elapsed⟩

instance : Journal InSession where
  note level message := fun session => do
    if let some style ← session.style.get then
      if style.shows level then IO.eprintln (style.line (← now) level message)

instance : Clock InSession where
  now := fun _ => now

instance : Gauge InSession where
  usage := fun session => usage session

/-- Reads a stream to its end. -/
partial def readAll (stream : IO.FS.Stream) (content : ByteArray) : IO ByteArray := do
  let more ← stream.read 65536
  if more.isEmpty then return content else readAll stream (content ++ more)

/-- A variable of the environment, as a name and a value around an equals sign. -/
def pairOf (line : String) : Option (String × String) :=
  match line.splitOn "=" with
  | name :: value :: rest => some (name, "=".intercalate (value :: rest))
  | _ => none

def betweenZeros (bytes : List UInt8) : List (List UInt8) :=
  bytes.foldr (fun byte parts =>
    match byte == 0, parts with
    | false, part :: rest => (byte :: part) :: rest
    | _, parts => [] :: parts) [[]]

def environment : IO (List (String × String)) := do
  let content ← IO.FS.readBinFile "/proc/self/environ"
  return (betweenZeros content.toList).filterMap fun part =>
    (String.fromUTF8? ⟨part.toArray⟩).bind pairOf

instance : Program.Terminal InSession where
  environment := fun _ => environment
  readInput := ExceptT.mk fun session => do
    (decodeText (← readAll (← IO.getStdin) ByteArray.empty)).run session
  print line := fun _ => IO.println line
  complain line := fun _ => IO.eprintln line
  openLog style := fun session => session.style.set (some style)

end InSession

end ReportMigration

/-- Starts the program whose name was called. -/
def main (arguments : List String) : IO UInt32 := do
  let session : ReportMigration.Session := ⟨← IO.mkRef none, ← IO.monoNanosNow⟩
  let converts := (← IO.appPath).fileName == some "sql-rewrite"
  let program : ReportMigration.InSession Nat :=
    if converts then ReportMigration.Program.Conversion.run arguments
    else ReportMigration.Program.Migration.run arguments
  return (← program.run session).toUInt32
