import ConsoleScript.Engine.Interface
import ConsoleScript.Settings.TomlReader

/-!
The settings of an interpreter and its command line, read from a file that is looked for in a folder
and those above it. Keys that are not known are passed over; a known key with a value of another
type makes the file malformed, except that the values to assign are passed over too if they are not
in a table. Relative paths in the file start from the folder of the file.
-/

namespace ConsoleScript

/-- The settings. -/
structure Settings where
  /-- The folder of the file. -/
  dir : Bytes := []
  maxDepth : Int := 0
  trace : Bool := false
  verbosity : Int := 0
  /-- The file that takes the log. -/
  log : Bytes := []
  /-- Scripts that are run at the start. -/
  autoexec : List Bytes := []
  /-- The config script. -/
  config : Bytes := []
  /-- The archive of snapshots. -/
  database : Bytes := []
  /-- Values that are assigned at the start. -/
  vars : List (Bytes × Bytes) := []
deriving Inhabited

/-- Why there are no settings. -/
inductive SettingsError where
  | unreadable (path : Bytes) (e : FileError)
  | malformed (path : Bytes)
deriving DecidableEq, Repr

namespace Settings

def fileName : Bytes := utf8 "cubescript.toml"

/-- A letter without its case, among them the long s and the sign of the kelvin. -/
def foldRune (c : Nat) : Nat :=
  if 0x41 ≤ c && c ≤ 0x5A then c + 0x20
  else if c == 0x17F then 0x73
  else if c == 0x212A then 0x6B
  else c

/-- A key without the case of its letters. -/
def foldCase (s : Bytes) : List Utf8.Rune := (Utf8.runes s).map fun
  | .point c => .point (foldRune c)
  | r => r

/-- Whether a key names a setting. -/
def isNamed (key : Bytes) (name : String) : Bool := foldCase key == foldCase (utf8 name)

def int? : Toml → Option Int
  | .int i => some i
  | _ => none

def bool? : Toml → Option Bool
  | .bool b => some b
  | _ => none

def text? : Toml → Option Bytes
  | .text s => some s
  | _ => none

def texts? : Toml → Option (List Bytes)
  | .array items => items.mapM text?
  | _ => none

def entries? : Toml → Option Toml.Entries
  | .table entries => some entries
  | _ => none

/-- Takes over the settings of a section. -/
def section? (set : Settings → Bytes → Toml → Option Settings) (c : Settings) (v : Toml) :
    Option Settings := do
  (← entries? v).foldlM (fun c (key, v) => set c key v) c

def runtime? (c : Settings) (key : Bytes) (v : Toml) : Option Settings :=
  if isNamed key "max-run-depth" then (int? v).map fun i => { c with maxDepth := i }
  else if isNamed key "trace" then (bool? v).map fun b => { c with trace := b }
  else some c

def log? (c : Settings) (key : Bytes) (v : Toml) : Option Settings :=
  if isNamed key "verbosity" then (int? v).map fun i => { c with verbosity := i }
  else if isNamed key "path" then (text? v).map fun s => { c with log := s }
  else some c

def exec? (c : Settings) (key : Bytes) (v : Toml) : Option Settings :=
  if isNamed key "autoexec" then (texts? v).map fun s => { c with autoexec := s } else some c

def persist? (c : Settings) (key : Bytes) (v : Toml) : Option Settings :=
  if isNamed key "config" then (text? v).map fun s => { c with config := s }
  else if isNamed key "database" then (text? v).map fun s => { c with database := s }
  else some c

def vars? (c : Settings) (key : Bytes) (v : Toml) : Option Settings :=
  (text? v).map fun s => { c with vars := c.vars ++ [(key, s)] }

/-- Takes over one key of the document. -/
def setting? (c : Settings) (key : Bytes) (v : Toml) : Option Settings :=
  if isNamed key "runtime" then section? runtime? c v
  else if isNamed key "log" then section? log? c v
  else if isNamed key "exec" then section? exec? c v
  else if isNamed key "persist" then section? persist? c v
  else if isNamed key "vars" then
    match v with
    | .table _ => section? vars? c v
    | _ => some c
  else some c

/-- The depth that holds if none is set. -/
def defaultDepth : Int := 255

/-- Fills in what is not set. -/
def withDefaults (c : Settings) : Settings :=
  { c with
    maxDepth := if c.maxDepth ≤ 0 then defaultDepth else c.maxDepth
    verbosity := if c.verbosity == 0 then 1 else c.verbosity }

/-- The settings for a folder without a file. -/
def default (dir : Bytes) : Settings := withDefaults { dir }

def ofText? (dir text : Bytes) : Option Settings := do
  let doc ← Toml.read? text
  let c ← doc.foldlM (fun c (key, v) => setting? c key v) { dir }
  return c.withDefaults

/-- The settings in a folder. -/
def load (d : Disk) (dir : Bytes) : Except SettingsError Settings :=
  let path := Path.join dir fileName
  match d.read path with
  | .error e => .error (.unreadable path e)
  | .ok text => match ofText? (Path.absolute d.cwdPath dir) text with
    | some c => .ok c
    | none => .error (.malformed path)

/-- The settings in a folder or the nearest one above it that has any; the fuel bounds the folders
above. -/
def findFrom (d : Disk) : (fuel : Nat) → Bytes → Except SettingsError (Option Settings)
  | 0, _ => .ok none
  | fuel + 1, dir =>
      if d.isThere (Path.join dir fileName) then (load d dir).map some
      else if Path.parent dir == dir then .ok none
      else findFrom d fuel (Path.parent dir)

/-- The settings in a folder or above it. Every step up makes the path shorter. -/
def find (d : Disk) (start : Bytes) : Except SettingsError (Option Settings) :=
  let dir := Path.absolute d.cwdPath start
  findFrom d (dir.length + 1) dir

/-- A path of the settings as seen from their folder. -/
def resolve (c : Settings) (path : Bytes) : Bytes :=
  if path.isEmpty || Path.isAbsolute path then path else Path.join c.dir path

def execPaths (c : Settings) : List Bytes := c.autoexec.map c.resolve

def configPath (c : Settings) : Bytes := c.resolve c.config

def databasePath (c : Settings) : Bytes := c.resolve c.database

def logPath (c : Settings) : Bytes := c.resolve c.log

/-- Assigns values in the order of their names, up to one that is refused. -/
def assignAll : List (Bytes × Bytes) → Engine (Except AccessError Unit)
  | [] => return .ok ()
  | (name, v) :: rest => do
      match ← Engine.setValue name (.ofBytes v) with
      | .ok () => assignAll rest
      | .error e => return .error e

/-- Lets the settings take effect. -/
def apply (c : Settings) : Engine (Except AccessError Unit) := do
  modify fun s => { s with maxDepth := c.maxDepth, trace := c.trace, dir := c.dir }
  assignAll (c.vars.mergeSort fun a b => Bytes.le a.1 b.1)

end Settings

end ConsoleScript
