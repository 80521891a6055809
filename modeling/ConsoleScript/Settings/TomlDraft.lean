import ConsoleScript.Settings.Toml

/-!
How the statements of a document are put together. Tables on the way to a value come into being by
themselves; such a table is implied, and may be defined once, by a header or by a key. The value of
that key is dropped, since the table stands; only where an array is written does the new value take
the place of the old one. Every further key with dots implies its tables anew and defines them at
once. Any other second definition makes the document malformed.
-/

namespace ConsoleScript.Toml

/-- A set of keys, as a tree of their names. -/
inductive KeySet where
  | node (here : Bool) (below : List (Bytes × KeySet))

namespace KeySet

/-- The set without keys. -/
def empty : KeySet := .node false []

def contains : Key → KeySet → Bool
  | [], .node here _ => here
  | name :: rest, .node _ below => match below.lookup name with
    | some s => contains rest s
    | none => false

/-- Says whether a key is in the set, and leaves the other keys as they are. -/
def set (isIn : Bool) : Key → KeySet → KeySet
  | [], .node _ below => .node isIn below
  | name :: rest, .node here below =>
      .node here (insert name (set isIn rest ((below.lookup name).getD empty)) below)

end KeySet

/-- A document in progress. -/
structure Draft where
  entries : Entries := []
  /-- The keys of implied tables. -/
  implied : KeySet := .empty
  /-- The keys whose values were written as arrays. -/
  arrays : KeySet := .empty

namespace Draft

def imply (d : Draft) (key : Key) : Draft := { d with implied := KeySet.set true key d.implied }

def settle (d : Draft) (key : Key) : Draft := { d with implied := KeySet.set false key d.implied }

/-- Notes whether the value at a key is written as an array. -/
def note (d : Draft) (key : Key) (isArray : Bool) : Draft :=
  { d with arrays := KeySet.set isArray key d.arrays }

/-- What is noted of a value under an empty name is noted of the table that holds it. -/
def noteValue (d : Draft) (key : Key) (isArray : Bool) : Draft :=
  let outer := key.dropLast
  d.note (if key.getLast? == some [] && !outer.isEmpty then outer else key) isArray

/-- Puts a value at a key. -/
def put (d : Draft) (key : Key) (v : Toml) : Option Draft :=
  (store v key d.entries).map fun entries => { d with entries }

/-- Gives a key its value. What is there already has to be implied. -/
def define (d : Draft) (key : Key) (v : Toml) : Option Draft :=
  if (find? key d.entries).isNone then d.put key v
  else if !KeySet.contains key d.implied then none
  else if KeySet.contains key d.arrays then (d.settle key).put key v
  else some (d.settle key)

/-- The keys of the tables around a key, the outermost first. -/
def outerKeys (key : Key) : List Key := ((List.range key.length).drop 1).map key.take

/-- Makes the tables around a key that are not there. -/
def openAround (d : Draft) (key : Key) : Option Draft :=
  if isOpen key d.entries then some d
  else (outerKeys key).foldlM (fun d outer =>
    if (find? outer d.entries).isSome then some d else (d.imply outer).put outer (.table [])) d

def openTable (d : Draft) (key : Key) : Option Draft := do
  (← d.openAround key).define key (.table [])

/-- Adds a table to those at a key. -/
def addTable (d : Draft) (key : Key) : Option Draft := do
  let d ← d.openAround key
  match find? key d.entries with
  | none => d.put key (.tables [[]])
  | some (.tables items) => d.put key (.tables ([] :: items))
  | some _ => none

/-- Opens the tables that the dots of a key name, from an open table on. -/
def openDotted (d : Draft) (current key : Key) : Option Draft :=
  (outerKeys key).foldlM (fun d outer =>
    let path := current ++ outer
    (d.imply path).openTable path) d

end Draft

mutual

/-- The value of a term that is written at a key, and the draft with its tables. A table between
braces is defined in the draft while it is read; in an array, it is added to the tables at the
key. -/
def Term.value (key : Key) (inArray : Bool) : Term → Draft → Option (Toml × Draft)
  | .text s, d => some (.text s, d)
  | .int i, d => some (.int i, d)
  | .bool b, d => some (.bool b, d)
  | .float, d => some (.float, d)
  | .moment, d => some (.moment, d)
  | .array items, d => do
      let (vs, d) ← itemValues key items (d.noteValue key true)
      return (.array vs, d)
  | .table fields, d => do
      let d := d.imply key
      let d ← if inArray then d.addTable key else d.openTable key
      let (entries, d) ← assignFields key fields [] d
      return (.table entries, d)

/-- The values of the items of an array. -/
def itemValues (key : Key) : List Term → Draft → Option (List Toml × Draft)
  | [], d => some ([], d)
  | t :: rest, d => do
      let (v, d) ← t.value key true d
      let (vs, d) ← itemValues key rest d
      return (v :: vs, d)

/-- Assigns fields in the table at a key, and collects them on their own. -/
def assignFields (current : Key) : List (Key × Term) → Entries → Draft → Option (Entries × Draft)
  | [], entries, d => some (entries, d)
  | (key, t) :: rest, entries, d => do
      let d ← d.openDotted current key
      let (v, d) ← t.value (current ++ key) false d
      let d ← d.define (current ++ key) v
      let d := d.noteValue (current ++ key) (v matches .array _)
      assignFields current rest (← storeDeep v key entries) d

end

/-- The draft after statements; keys go into the table that was opened last. -/
def Draft.addAll : (current : Key) → List Statement → Draft → Option Draft
  | _, [], d => some d
  | _, .table key :: rest, d => do addAll key rest ((← d.openTable key).note key false)
  | _, .tables key :: rest, d => do addAll key rest ((← d.addTable key).note key false)
  | current, .assign key t :: rest, d => do
      let (_, d) ← assignFields current [(key, t)] [] d
      addAll current rest d

/-- The document that statements come to. -/
def ofStatements? (statements : List Statement) : Option Entries :=
  (Draft.addAll [] statements {}).map (·.entries)

end ConsoleScript.Toml
