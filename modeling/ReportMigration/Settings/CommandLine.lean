import ReportMigration.Text.Utf8

/-!
# Command lines

Reads the arguments of a program by a grammar of switches. A switch stands alone, takes a path or
takes a list of texts; its value follows as the next argument, after an equals sign, or after its
letter. A value is looked at only when the next switch or the end of the arguments is reached.
-/

namespace ReportMigration.CommandLine

/-- What a switch takes. A switch that asks for help takes nothing and ends the reading. -/
inductive Kind where
  | flag
  | path
  | texts
  | help
deriving DecidableEq, Repr

/-- A switch by its name after two dashes, its letter after one dash, and what it takes. -/
structure Switch where
  name : String
  letter : Option Char
  kind : Kind
deriving DecidableEq, Repr

/-- The switches of a program, and the path it takes without a switch, if it takes one. -/
structure Grammar where
  switches : List Switch
  operand : Option Switch

/-- Why arguments are refused. Help is asked for in the same way. -/
inductive UsageFault where
  | unknown
  | invalidValue
  | repeated
  | unexpectedValue
  | help
deriving DecidableEq, Repr

/-- What is said about the arguments of a program that are refused. -/
def UsageFault.message (fault : UsageFault) (program : String) : String :=
  let reason := match fault with
    | .unknown => "unexpected argument"
    | .invalidValue => "a value is required"
    | .repeated => "an argument cannot be used multiple times"
    | .unexpectedValue => "unexpected value for an argument"
    | .help => "help"
  s!"error: {reason}\n\nFor more information about {program}, try '--help'."

abbrev Given := List (String × List String)

namespace Given

/-- Whether a switch was given. -/
def has (given : Given) (name : String) : Bool :=
  given.any (·.1 == name)

def values (given : Given) (name : String) : List String :=
  (given.filter (·.1 == name)).flatMap (·.2)

end Given

def take (given : Given) (s : Switch) (values : List String) : Except UsageFault Given :=
  match s.kind with
  | .help => .error .help
  | .flag => if given.has s.name then .error .repeated else .ok (given ++ [(s.name, [])])
  | .path =>
    if values.isEmpty then .error .invalidValue
    else if given.has s.name then .error .repeated
    else if values.any String.isEmpty then .error .invalidValue
    else .ok (given ++ [(s.name, values)])
  | .texts =>
    if values.isEmpty then .error .invalidValue
    else .ok (given ++ [(s.name, values.flatMap (·.splitOn ","))])

/-- How far the arguments are read: the switches taken, the switch at hand with its values,
whether it still waits for one, whether operands were read, and whether switches are over. -/
structure State where
  given : Given
  pending : Option (Switch × List String)
  waiting : Bool
  operands : Nat
  literal : Bool

namespace State

def settle (s : State) : Except UsageFault State :=
  match s.pending with
  | none => .ok s
  | some (switch, values) =>
    (take s.given switch values).map fun given => { s with given := given, pending := none }

/-- Takes the switch at hand and then another one at once. -/
def takeNow (s : State) (switch : Switch) (values : List String) : Except UsageFault State := do
  let s ← s.settle
  let given ← take s.given switch values
  return { s with given := given, waiting := false }

/-- Takes the switch at hand and waits for the value of another one. -/
def await (s : State) (switch : Switch) : Except UsageFault State := do
  let s ← s.settle
  return { s with pending := some (switch, []), waiting := true }

def takesValue (switch : Switch) : Bool :=
  switch.kind == .path || switch.kind == .texts

/-- Reads a switch by name, with the value after its equals sign if there is one. -/
def readName (grammar : Grammar) (s : State) (name : String) (value : Option String) :
    Except UsageFault State :=
  match grammar.switches.find? (·.name == name) with
  | none => .error .unknown
  | some switch =>
    match value with
    | some value =>
      if takesValue switch then s.takeNow switch [value] else .error .unexpectedValue
    | none => if takesValue switch then s.await switch else s.takeNow switch []

/-- Reads switches by their letters. The letters after one that takes a value are its value. -/
def readLetters (grammar : Grammar) (s : State) : List Char → Except UsageFault State
  | [] => .ok s
  | c :: rest =>
    match grammar.switches.find? (·.letter == some c) with
    | none => .error .unknown
    | some switch =>
      if takesValue switch then
        match rest with
        | [] => s.await switch
        | '=' :: value => s.takeNow switch [String.ofList value]
        | value => s.takeNow switch [String.ofList value]
      else do
        let s ← s.takeNow switch []
        readLetters grammar s rest

def readOperand (grammar : Grammar) (s : State) (argument : String) : Except UsageFault State :=
  match grammar.operand with
  | none => .error .unknown
  | some operand =>
    if s.operands = 0 then do
      let s ← s.settle
      return { s with pending := some (operand, [argument]), waiting := false, operands := 1 }
    else .error .unknown

/-- Reads an argument that is not read as a switch: the value waited for, or an operand. -/
def readPlain (grammar : Grammar) (s : State) (argument : String) : Except UsageFault State :=
  match s.pending with
  | some (switch, values) =>
    if s.waiting then
      .ok { s with pending := some (switch, values ++ [argument]), waiting := false }
    else s.readOperand grammar argument
  | none => s.readOperand grammar argument

/-- Cuts a long switch into its name and the value after its equals sign. -/
def cutName (text : List Char) : String × Option String :=
  match text.dropWhile (· != '=') with
  | [] => (String.ofList text, none)
  | _ :: value => (String.ofList (text.takeWhile (· != '=')), some (String.ofList value))

def read (grammar : Grammar) (s : State) (argument : String) : Except UsageFault State :=
  if s.literal then s.readOperand grammar argument
  else
    match argument.toList with
    | ['-', '-'] => .ok { s with literal := true }
    | '-' :: '-' :: text => s.readName grammar (cutName text).1 (cutName text).2
    | '-' :: c :: rest => s.readLetters grammar (c :: rest)
    | _ => s.readPlain grammar argument

end State

def parse (grammar : Grammar) (arguments : List String) : Except UsageFault Given := do
  let last ← arguments.foldlM (State.read grammar) ⟨[], none, false, 0, false⟩
  return (← last.settle).given

end ReportMigration.CommandLine
