import Taskflow.Files
import Taskflow.Settings
import Taskflow.Toml.Read

/-!
# Where settings come from

Settings are laid over each other: first documents, then variables of the environment.  A layer may
say things in any form that can be understood; a value that cannot is refused.
-/

namespace Taskflow

/-! ## Keys

The case of keys does not matter, and a key can name a place further inside a document: names with
dots between them lead through tables, and numbers in brackets lead into arrays.
-/

namespace Settings

/-- A key in lower case.  Of the letters beyond ASCII only the Kelvin sign has a lower case in
ASCII, which is where all keys of settings are. -/
def foldCase (key : String) : String := key.toLower.map fun c ↦ if c = '\u212a' then 'k' else c

/-- Where a value is put. -/
structure Place where
  /-- the keys that lead to the table that holds it -/
  way : List String
  key : String
  /-- whether it is put into an array there -/
  listed : Bool
deriving DecidableEq, Repr

namespace Place

/-- Whether a character can be in a name on the way to a place. -/
def inName (c : Char) : Bool := c.isAlphanum || c == '_' || c == '-' || c == ' '

/-- Whether a text is a number of 64 bits, with blanks around it. -/
def isIndex (s : String) : Bool :=
  let isBlank (c : Char) : Bool := c == ' ' || c == '\t'
  let cs := ((s.toList.dropWhile isBlank).reverse.dropWhile isBlank).reverse
  cs.head? != some '+' && ((Digits.int? cs).map Digits.fitsSigned).getD false

/-- Whether a text is made of numbers in brackets. -/
def isIndices (s : String) : Bool :=
  match (s.splitOn "]").reverse with
  | "" :: groups => groups.all fun g ↦ g.startsWith "[" && isIndex (g.drop 1).toString
  | _ => false

/-- A name, and whether numbers in brackets follow it. -/
def segment? (s : String) : Option (String × Bool) :=
  let name := s.toList.takeWhile inName
  let rest := s.toList.dropWhile inName
  if name.isEmpty then none
  else if rest.isEmpty then some (String.ofList name, false)
  else if isIndices (String.ofList rest) then some (String.ofList name, true)
  else none

/-- The place that names lead to, up to the first array on the way. -/
def ofSegments (way : List String) : List (String × Bool) → Option Place
  | [] => none
  | (name, true) :: _ => some ⟨way.reverse, name, true⟩
  | [(name, false)] => some ⟨way.reverse, name, false⟩
  | (name, false) :: rest => ofSegments (name :: way) rest

/-- The place that a key names.  A key that is no way to a place is a single name. -/
def ofKey (key : String) : Place :=
  (((key.splitOn ".").mapM segment?).bind (ofSegments [])).getD ⟨[], key, false⟩

end Place

end Settings

/-! ## Layers -/

namespace Toml

/-- The entries of a value; none if it is no table. -/
def entries : Toml → Table Toml
  | .table entries => entries
  | _ => []

mutual

/-- Lay a value under a key.  A table is laid over what is there entry by entry; any other value
takes its place. -/
def assign (entries : Table Toml) (key : String) : Toml → Table Toml
  | .table incoming =>
    let inside := (entries.lookup (Settings.foldCase key)).getD (.table [])
    Table.put (Settings.foldCase key) (assignAll inside incoming) entries
  | v => Table.put (Settings.foldCase key) v entries

/-- Lay entries over a value, which becomes a table if it is none. -/
def assignAll (inside : Toml) : List (String × Toml) → Toml
  | [] => inside
  | (k, v) :: rest => assignAll (.table (assign inside.entries k v)) rest

end

/-- Lay a value under a key of the table that some keys lead to. -/
def assignAt (key : String) (v : Toml) : List String → Table Toml → Table Toml
  | [], entries => assign entries key v
  | k :: way, entries =>
    let inside := ((entries.lookup (Settings.foldCase k)).getD (.table [])).entries
    Table.put (Settings.foldCase k) (.table (assignAt key v way inside)) entries

/-- Lay a value over what is at a place.  Nothing is read from arrays, so of an array only the value
is kept. -/
def assignPlace (place : Settings.Place) (v : Toml) (entries : Table Toml) : Table Toml :=
  assignAt place.key (if place.listed then .array [v] else v) place.way entries

/-- Lay the entries of a document over those that are there. -/
def overlay (below above : Table Toml) : Table Toml :=
  above.foldl (fun entries e ↦ assignPlace (.ofKey e.1) e.2 entries) below

/-! ## Values in other forms -/

/-- The truth value that a word stands for. -/
def truth? (word : String) : Option Bool :=
  if word.toLower ∈ ["true", "yes", "on"] then some true
  else if word.toLower ∈ ["false", "no", "off"] then some false
  else none

/-- A truth value; of a number, whether it differs from zero. -/
def toBool? : Toml → Option Bool
  | .bool b => some b
  | .int n => some (n != 0)
  | .real x => some (!x.isZero)
  | .text s => if s = "1" then some true else if s = "0" then some false else truth? s
  | _ => none

/-- A count.  Numbers with a fraction are rounded; truth values count as one and zero. -/
def toCount? : Toml → Option Nat
  | .bool b => some b.toNat
  | .int n => if 0 ≤ n then some n.toNat else none
  | .real x => some x.toCount
  | .text s => ((truth? s).map Bool.toNat).or (Digits.count? s.toList)
  | _ => none

/-- A text; truth values and numbers stand for their names. -/
def toText? : Toml → Option String
  | .bool b => some (if b then "true" else "false")
  | .int n => some (toString n)
  | .real x => some x.render
  | .text s | .moment s => some s
  | _ => none

/-- A policy, by its name in any case, which may also be the only key of a table. -/
def toPolicy? (v : Toml) : Option Policy :=
  let named (s : String) : Option Policy :=
    [Policy.failFast, .waitAll].find? fun p ↦ p.name == s.toLower
  match v with
  | .text s => named s
  | .table [(s, _)] => named s
  | _ => none

end Toml

namespace Settings

/-- The settings that entries make, where those that are missing are as standard. -/
def ofEntries? (entries : Table Toml) : Option Settings := do
  let entry {α : Type} (read : Toml → Option α) (key : String) (standard : α) : Option α :=
    match entries.lookup key with
    | some v => read v
    | none => some standard
  some
    { strict := ← entry Toml.toBool? "strict" standard.strict
      typed := ← entry Toml.toBool? "typed" standard.typed
      policy := ← entry Toml.toPolicy? "product_policy" standard.policy
      timeout := ← entry (fun v ↦ v.toCount?.map some) "task_timeout_ms" standard.timeout
      latency := ← entry Toml.toCount? "simulated_latency_ms" standard.latency
      logLevel := ← entry Toml.toText? "log_level" standard.logLevel }

/-! ## Variables -/

/-- What the name of a variable begins with if it is about settings. -/
def variableStart : String := "catflow_"

/-- The value that the text of a variable stands for. -/
def ofVariable (text : String) : Toml :=
  let bool :=
    if text.toLower = "true" then some true
    else if text.toLower = "false" then some false
    else none
  match bool, Digits.int? text.toList, Double.parse? text with
  | some b, _, _ => .bool b
  | none, some n, x =>
    if Digits.fitsSigned n then .int n
    else
      match x with
      | some x => .real x
      | none => .text text
  | none, none, some x => .real x
  | none, none, none => .text text

/-- The entries that variables of the environment make. -/
def ofVariables (vars : Table String) : Table Toml :=
  vars.filterMap fun e ↦
    let name := foldCase e.1
    if name.startsWith variableStart then
      some ((name.drop variableStart.length).toString, ofVariable e.2)
    else none

/-! ## Loading -/

/-- The document that is read if it is there. -/
def standardFile : String := "catflow.toml"

/-- The settings that documents and variables make, the later ones over the earlier ones. -/
def load (documents : List String) (vars : Table String) : Except Problem Settings :=
  match documents.mapM Toml.parse? with
  | none => .error .unreadable
  | some layers =>
    let entries := (layers ++ [ofVariables vars]).foldl Toml.overlay []
    -- a key can name a place now that it is in lower case
    match ofEntries? (Toml.overlay [] entries) with
    | none => .error .unreadable
    | some s =>
      match s.problem? with
      | some problem => .error problem
      | none => .ok s

/-- Look for a document under a path, or with `.toml` behind the last name on it. -/
def find {m : Type → Type} [Monad m] (files : Files m) (path : String) :
    m (Except FileError String) := do
  match ← files.readText path, Path.withExtension? path "toml" with
  | .ok text, _ => pure (.ok text)
  | .error .notText, _ => pure (.error .notText)
  | .error e, none => pure (.error e)
  | .error _, some path => files.readText path

/-- Load settings from the standard document if it can be read, from the document under `path`,
which has to be there, and from variables. -/
def loadFrom {m : Type → Type} [Monad m] (files : Files m) (vars : Table String)
    (path : Option String) : m (Except Problem Settings) := do
  let below := (← find files standardFile).toOption.toList
  match path with
  | none => pure (load below vars)
  | some path =>
    match ← find files path with
    | .error _ => pure (.error .unreadable)
    | .ok above => pure (load (below ++ [above]) vars)

end Settings

end Taskflow
