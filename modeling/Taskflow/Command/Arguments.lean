import Taskflow.Digits

/-!
# Arguments of the command line

Arguments are read from left to right.  Options that hold for every command stand before or after
its name; an option waits for its value, and what it was given is only judged when the next thing
is read.
-/

namespace Taskflow.Command

/-- Why arguments are no command. -/
inductive UsageError where
  /-- help was asked for -/
  | help
  | nothingGiven
  | unknownArgument
  | unknownCommand
  | missingCommand
  | missingFile
  /-- a value that is missing or empty -/
  | missingValue
  /-- a value that is no count -/
  | badCount
  /-- a value for an option that takes none -/
  | needlessValue
  | repeated
deriving DecidableEq, Repr

/-- What a user can ask for. -/
inductive Verb where
  | run
  | check
  | ast
  | config
deriving DecidableEq, Repr

namespace Verb

def ofName? : String → Option Verb
  | "run" => some .run
  | "check" => some .check
  | "ast" => some .ast
  | "config" => some .config
  | _ => none

def takesFile : Verb → Bool
  | .config => false
  | _ => true

end Verb

/-- What an argument can be about. -/
inductive Slot where
  | file
  | config
  | input
  | environment
  | timeout
  | latency
  | verbose
  | help
  | strict
  | waitAll
  | untyped
  | json
deriving DecidableEq, Repr

namespace Slot

/-- What a value has to be. -/
inductive Kind where
  | flag
  | text
  | path
  | count
deriving DecidableEq, Repr

def kind : Slot → Kind
  | .file | .config | .environment => .path
  | .input => .text
  | .timeout | .latency => .count
  | _ => .flag

/-- The long name of an option. -/
def ofName? (verb : Option Verb) (name : String) : Option Slot :=
  match verb, name with
  | _, "config" => some .config
  | _, "verbose" => some .verbose
  | _, "help" => some .help
  | some .run, "input" => some .input
  | some .run, "strict" => some .strict
  | some .run, "wait-all" => some .waitAll
  | some .run, "untyped" => some .untyped
  | some .run, "timeout-ms" => some .timeout
  | some .run, "latency-ms" => some .latency
  | some .run, "env" => some .environment
  | some .check, "env" => some .environment
  | some .check, "json" => some .json
  | _, _ => none

/-- The name of an option of one letter. -/
def ofLetter? : Char → Option Slot
  | 'v' => some .verbose
  | 'h' => some .help
  | _ => none

/-- What is wrong with a value. -/
def refuse (slot : Slot) (value : String) : Option UsageError :=
  match slot.kind with
  | .path => if value = "" then some .missingValue else none
  | .count => if (Digits.count? value.toList).isNone then some .badCount else none
  | _ => none

end Slot

/-- What the arguments of one command say so far. -/
structure Reading where
  /-- what was given, with values; flags have an empty one -/
  given : List (Slot × String)
  /-- what is not yet judged: an option, and its value if it is there -/
  pending : Option (Slot × Option String)
  /-- whether two dashes ended the options -/
  onlyFiles : Bool

namespace Reading

/-- Before the first argument. -/
def start : Reading := ⟨[], none, false⟩

def has (r : Reading) (slot : Slot) : Bool := r.given.any (·.1 == slot)

def value? (r : Reading) (slot : Slot) : Option String := r.given.lookup slot

/-- Whether an option waits for its value. -/
def waits (r : Reading) : Bool :=
  match r.pending with
  | some (_, none) => true
  | _ => false

/-- Take something as given.  Only the option for more messages may be repeated. -/
def add (r : Reading) (slot : Slot) (value : String) : Except UsageError Reading :=
  if slot = .help then .error .help
  else if slot = .verbose then .ok { r with given := r.given ++ [(slot, value)] }
  else if r.has slot then .error .repeated
  else
    match slot.refuse value with
    | some e => .error e
    | none => .ok { r with given := r.given ++ [(slot, value)] }

/-- Judge what is pending. -/
def settle (r : Reading) : Except UsageError Reading :=
  match r.pending with
  | none => .ok r
  | some (_, none) => .error .missingValue
  | some (slot, some value) => { r with pending := none }.add slot value

/-- Read an option that is written with two dashes. -/
def long (r : Reading) (slot : Slot) (value : Option String) : Except UsageError Reading := do
  match slot.kind, value with
  | .flag, some _ => .error .needlessValue
  | .flag, none => (← r.settle).add slot ""
  | _, some value => (← r.settle).add slot value
  | _, none => .ok { (← r.settle) with pending := some (slot, none) }

/-- Read options that are written with one letter each. -/
def letters (r : Reading) : List Char → Except UsageError Reading
  | [] => .ok r
  | c :: rest =>
    match Slot.ofLetter? c with
    | none => .error .unknownArgument
    | some slot => do (← (← r.settle).add slot "").letters rest

/-- Read an argument that is neither an option nor a value of one. -/
def positional (verb : Option Verb) (r : Reading) (arg : String) : Except UsageError Reading := do
  match verb with
  | none =>
    -- the name of a command has to stand before the two dashes
    if r.onlyFiles && (arg == "help" || (Verb.ofName? arg).isSome) then .error .unknownArgument
    else .error .unknownCommand
  | some verb =>
    if verb.takesFile && !r.has .file && (r.pending.map (·.1)) != some .file then
      .ok { (← r.settle) with pending := some (.file, some arg) }
    else .error .unknownArgument

/-- Cut a text at the first equals sign. -/
def cutValue (cs : List Char) : String × Option String :=
  match cs.dropWhile (· != '=') with
  | [] => (String.ofList cs, none)
  | _ :: value => (String.ofList (cs.takeWhile (· != '=')), some (String.ofList value))

/-- Read one argument. -/
def step (verb : Option Verb) (r : Reading) (arg : String) : Except UsageError Reading :=
  if r.onlyFiles then r.positional verb arg
  else
    match arg.toList with
    | ['-', '-'] => .ok { r with onlyFiles := true }
    | '-' :: '-' :: cs =>
      let (name, value) := cutValue cs
      match Slot.ofName? verb name with
      | none => .error .unknownArgument
      | some slot => r.long slot value
    | '-' :: c :: cs => r.letters (c :: cs)
    | _ =>
      match r.pending with
      | some (slot, none) => .ok { r with pending := some (slot, some arg) }
      | _ => r.positional verb arg

/-- Read the arguments of a command, which are all that are left. -/
def finish (verb : Verb) (r : Reading) (args : List String) : Except UsageError Reading := do
  let r ← (← args.foldlM (step (some verb)) r).settle
  if verb.takesFile && !r.has .file then .error .missingFile else .ok r

end Reading

/-- What help is asked about: nothing, or one command. -/
def help : List String → UsageError
  | [] => .help
  | name :: rest =>
    if (name == "help" || (Verb.ofName? name).isSome) && rest.isEmpty then .help
    else .unknownCommand

/-- Read arguments up to the name of a command, and then its own. -/
def readFrom (r : Reading) : List String → Except UsageError (Verb × Reading × Reading)
  | [] => do
    let r ← r.settle
    .error (if r.given.isEmpty then .nothingGiven else .missingCommand)
  | arg :: rest =>
    match (if r.onlyFiles || r.waits then none else some arg) with
    | some "help" => .error (help rest)
    | name =>
      match name.bind Verb.ofName? with
      | some verb => do
        let own ← Reading.start.finish verb rest
        .ok (verb, ← r.settle, own)
      | none => do readFrom (← r.step none arg) rest

/-- What is to be done. -/
inductive Action where
  | run (file : String) (input environment : Option String) (strict waitAll untyped : Bool)
    (timeout latency : Option Nat)
  | check (file : String) (environment : Option String) (json : Bool)
  | ast (file : String)
  | config
deriving DecidableEq, Repr

/-- A command. -/
structure Arguments where
  /-- the path of a document with settings -/
  config : Option String
  /-- how many more messages are wanted -/
  verbosity : Nat
  action : Action
deriving DecidableEq, Repr

/-- The command that arguments make. -/
def Arguments.read (args : List String) : Except UsageError Arguments := do
  let (verb, shared, own) ← readFrom .start args
  let file := (own.value? .file).getD ""
  let count (slot : Slot) : Option Nat := (own.value? slot).bind (Digits.count? ·.toList)
  let action : Action := match verb with
    | .run =>
      .run file (own.value? .input) (own.value? .environment) (own.has .strict) (own.has .waitAll)
        (own.has .untyped) (count .timeout) (count .latency)
    | .check => .check file (own.value? .environment) (own.has .json)
    | .ast => .ast file
    | .config => .config
  .ok ⟨(own.value? .config).or (shared.value? .config),
    ((shared.given ++ own.given).filter (·.1 == .verbose)).length, action⟩

end Taskflow.Command
