import LogShipping.Decimal.Signed

/-!
# Arguments of the verification job

The job is told a peer and a table, and may be told the families to look at and a range of
timestamps. Options are spelled in full and take their value behind an equals sign or in the next
argument; a value that begins with a hyphen needs the equals sign. Two hyphens end the options.

Arguments are taken one by one. The value of an option that stands in an argument of its own is looked
at only when the next option or operand has been recognised, so a later argument that is none is
reported first.
-/

namespace LogShipping.Verify

/-! ## Faults -/

/-- An option that takes a value. -/
inductive ArgumentOption
  | families
  | start
  | stop
  deriving Repr, DecidableEq

namespace ArgumentOption

def name : ArgumentOption → String
  | families => "families"
  | start => "starttime"
  | stop => "stoptime"

def ofName? (name : String) : Option ArgumentOption :=
  [families, start, stop].find? fun option ↦ option.name = name

/-- The option as messages show it, with a word for its value. -/
def usage : ArgumentOption → String
  | families => "--families <FAMILIES>"
  | start => "--starttime <START_TIME>"
  | stop => "--stoptime <STOP_TIME>"

end ArgumentOption

inductive ArgumentFault
  /-- Help is asked for. -/
  | help
  | unexpected (argument : String)
  | unexpectedValue (value : String)
  | missingValue (option : ArgumentOption)
  | invalidValue (option : ArgumentOption) (value : String) (fault : Decimal.NumeralFault)
  | repeated (option : ArgumentOption)
  | missingOperands
  | emptyRange (start stop : Int)
  deriving Repr, DecidableEq

namespace ArgumentFault

def message : ArgumentFault → String
  | help => "help"
  | unexpected argument => "error: unexpected argument '" ++ argument ++ "' found"
  | unexpectedValue value =>
    "error: unexpected value '" ++ value ++ "' for '--help' found; no more were expected"
  | missingValue option =>
    "error: a value is required for '" ++ option.usage ++ "' but none was supplied"
  | invalidValue option value fault =>
    "error: invalid value '" ++ value ++ "' for '" ++ option.usage ++ "': " ++ fault.message
  | repeated option =>
    "error: the argument '" ++ option.usage ++ "' cannot be used multiple times"
  | missingOperands => "error: the following required arguments were not provided:"
  | emptyRange start stop =>
    "starttime " ++ Decimal.signed start ++ " must be before stoptime " ++ Decimal.signed stop

end ArgumentFault

/-! ## Arguments -/

structure Arguments where
  peer : String
  table : String
  /-- The families to look at, all if there are none. -/
  families : List String
  /-- The first timestamp to look at. -/
  start : Option Int
  /-- The first timestamp not to look at any more. -/
  stop : Option Int
  deriving Repr, DecidableEq

namespace Arguments

def inRange (arguments : Arguments) (timestamp : Int) : Bool :=
  arguments.start.all (· ≤ timestamp) && arguments.stop.all (timestamp < ·)

/-- What has been read of the arguments so far. -/
structure Reading where
  operands : List String
  families : List String
  start : Option Int
  stop : Option Int
  /-- An option, and the argument that gives its value, which have not been looked at yet. -/
  pending : Option (ArgumentOption × Option String)
  /-- Only operands follow. -/
  escaped : Bool
  deriving Repr, DecidableEq

namespace Reading

def empty : Reading := ⟨[], [], none, none, none, false⟩

/-- Takes the value of an option. -/
def assign (reading : Reading) (option : ArgumentOption) (value : String) :
    Except ArgumentFault Reading :=
  match option with
  | .families => .ok { reading with families := reading.families ++ value.splitOn "," }
  | .start =>
    if reading.start.isSome then .error (.repeated .start)
    else
      match Decimal.readSigned value with
      | .ok number => .ok { reading with start := some number }
      | .error fault => .error (.invalidValue .start value fault)
  | .stop =>
    if reading.stop.isSome then .error (.repeated .stop)
    else
      match Decimal.readSigned value with
      | .ok number => .ok { reading with stop := some number }
      | .error fault => .error (.invalidValue .stop value fault)

/-- Looks at what is pending. -/
def settle (reading : Reading) : Except ArgumentFault Reading :=
  match reading.pending with
  | none => .ok reading
  | some (option, none) => .error (.missingValue option)
  | some (option, some value) => { reading with pending := none }.assign option value

/-- Takes an operand: the peer, then the table. -/
def operand (reading : Reading) (argument : String) : Except ArgumentFault Reading :=
  if 2 ≤ reading.operands.length then .error (.unexpected argument)
  else reading.settle.map fun reading ↦ { reading with operands := reading.operands ++ [argument] }

/-- The name of an option and the value behind its equals sign, if there is one. -/
def splitEquals (argument : List Char) : String × Option String :=
  let name := String.ofList (argument.takeWhile (· != '='))
  match argument.dropWhile (· != '=') with
  | [] => (name, none)
  | _ :: value => (name, some (String.ofList value))

/-- Takes an argument with two hyphens in front, which are left off. -/
def long (reading : Reading) (argument : List Char) : Except ArgumentFault Reading := do
  let (name, value) := splitEquals argument
  match ArgumentOption.ofName? name, value with
  | some option, some value => (← reading.settle).assign option value
  | some option, none => return { ← reading.settle with pending := some (option, none) }
  | none, value =>
    if name = "help" then
      match value with
      | some value => throw (.unexpectedValue value)
      | none =>
        let _ ← reading.settle
        throw .help
    else throw (.unexpected ("--" ++ name))

/-- Takes an argument with one hyphen in front, which is left off. The letter after it decides. -/
def short (reading : Reading) (letter : Char) : Except ArgumentFault Reading := do
  if letter = 'h' then
    let _ ← reading.settle
    throw .help
  else throw (.unexpected ("-" ++ letter.toString))

/-- Takes the next argument. -/
def take (reading : Reading) (argument : String) : Except ArgumentFault Reading :=
  if reading.escaped then reading.operand argument
  else
    match argument.toList with
    | ['-', '-'] => .ok { reading with escaped := true }
    | '-' :: '-' :: rest => reading.long rest
    | '-' :: letter :: _ => reading.short letter
    | _ =>
      match reading.pending with
      | some (option, none) => .ok { reading with pending := some (option, some argument) }
      | _ => reading.operand argument

/-- What the arguments say in the end. -/
def finish (reading : Reading) : Except ArgumentFault Arguments := do
  let reading ← reading.settle
  match reading.operands with
  | [peer, table] =>
    let families := reading.families.filter (· != "")
    match reading.start, reading.stop with
    | some start, some stop =>
      if stop ≤ start then throw (.emptyRange start stop)
      else return ⟨peer, table, families, some start, some stop⟩
    | start, stop => return ⟨peer, table, families, start, stop⟩
  | _ => throw .missingOperands

end Reading

def read (arguments : List String) : Except ArgumentFault Arguments := do
  (← arguments.foldlM Reading.take Reading.empty).finish

end Arguments

end LogShipping.Verify
