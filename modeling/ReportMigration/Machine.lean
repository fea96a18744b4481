import ReportMigration.Monitor
import ReportMigration.Program.Terminal
import ReportMigration.Storage.Disk

/-!
# Machines

A machine on which the programs run as functions: its disk, what it reads and prints, its clock and
its gauge. What is said about a run is said about the machine before and after it.
-/

namespace ReportMigration

open Storage

/-- A line of the error output: a note of the log, or a text. -/
inductive ErrorLine where
  | note (level : Level) (message : String)
  | text (line : String)
deriving DecidableEq, Repr

/-- A machine. Its clock stands still and its gauge shows always the same. -/
structure Machine where
  disk : Disk
  environment : List (String × String) := []
  input : ByteArray := ByteArray.empty
  time : Report.Timestamp := ⟨0, 0⟩
  usage : Usage := ⟨0, 0, 0, 0⟩
  log : Option LogStyle := none
  output : List String := []
  errors : List ErrorLine := []

abbrev OnMachine := StateM Machine

namespace Machine

def ask {α : Type} (question : Disk → α) : OnMachine α :=
  return question (← get).disk

/-- Asks the disk for something that it may refuse. -/
def tryAsk {α : Type} (question : Disk → Except IoFault α) : ExceptT IoFault OnMachine α :=
  ExceptT.mk (ask question)

/-- Lets an operation change the disk, unless it is refused. -/
def tryChange (operation : Disk → Except IoFault Disk) : ExceptT IoFault OnMachine Unit :=
  ExceptT.mk (modifyGet fun machine =>
    match operation machine.disk with
    | .ok disk => (.ok (), { machine with disk := disk })
    | .error fault => (.error fault, machine))

/-- Makes a note in the log, if it is open and shows the note. -/
def note (level : Level) (message : String) (machine : Machine) : Machine :=
  match machine.log with
  | some style =>
    if style.shows level then { machine with errors := machine.errors ++ [.note level message] }
    else machine
  | none => machine

instance : FileSystem OnMachine where
  readText path := tryAsk (·.readText path)
  writeText path text := tryChange (·.writeContent path text.toUTF8)
  copyFile source target := tryChange (·.copyFile source target)
  createDirectories path := ExceptT.mk (modifyGet fun machine =>
    let (result, disk) := machine.disk.createDirectories path
    (result, { machine with disk := disk }))
  isPresent path := tryAsk (·.isPresent path)
  isDirectory path := ask (·.isDirectory path)
  walk path := ask (·.walk path)

instance : Journal OnMachine where
  note level message := modify (note level message)

instance : Clock OnMachine where
  now := return (← get).time

instance : Gauge OnMachine where
  usage := return (← get).usage

instance : Program.Terminal OnMachine where
  environment := return (← get).environment
  readInput := ExceptT.mk (return match String.fromUTF8? (← get).input with
    | some text => .ok text
    | none => .error .invalidUtf8)
  print line := modify fun machine => { machine with output := machine.output ++ [line] }
  complain line := modify fun machine => { machine with errors := machine.errors ++ [.text line] }
  openLog style := modify fun machine => { machine with log := some style }

end Machine

end ReportMigration
