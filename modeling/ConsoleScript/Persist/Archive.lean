import ConsoleScript.Engine.Interface
import ConsoleScript.Persist.Config
import ConsoleScript.Persist.Location

/-!
Snapshots of the saved identifiers. They are kept in a store, and each is found by its id. Loading one
writes its entries back, as far as the interpreter takes them. The stores here are archives: files that
hold the snapshots, with the newest first.
-/

namespace ConsoleScript

/-- Why an archive or a snapshot in it cannot be used. -/
inductive ArchiveError where
  /-- No snapshot has the id; without an id, there is none at all. -/
  | notFound (id : Option Bytes)
  /-- The parameters behind the path are malformed. -/
  | badParameters (e : ParameterError)
  /-- The file cannot be opened or made. -/
  | cannotOpen
  /-- The file that takes notes of a change cannot be made. -/
  | cannotWrite
  /-- The file is something else. -/
  | notArchive
deriving DecidableEq, Repr

def ArchiveError.message : ArchiveError → Bytes
  | .notFound (some id) => id ++ utf8 ": snapshot not found"
  | .notFound none => utf8 "snapshot not found"
  | .badParameters e => utf8 "setting busy timeout: " ++ e.message
  | .cannotWrite => utf8 "creating tables: unable to open database file (14)"
  | .cannotOpen =>
      utf8 "setting busy timeout: unable to open database file: out of memory (14)"
  | .notArchive => utf8 "creating tables: file is not a database (26)"

/-- A store of snapshots on a disk: what saving and loading use of a database. -/
structure SnapshotStore where
  /-- Adds a snapshot. -/
  insert : Snapshot → Disk → Except ArchiveError Disk
  /-- The entries of the snapshot with an id, in the order of their names. -/
  rows : Bytes → Disk → Except ArchiveError (Option (List Entry) × Disk)

namespace Entry

/-- The order of names. -/
def before (e e' : Entry) : Bool := Bytes.le e.name e'.name

/-- Writes an entry back. A variable has to be there; what the interpreter refuses is left out. -/
def restore (e : Entry) : Engine Unit := do
  let isThere := match (← get).table.lookup? e.name with
    | some (_, id) => id.role.isVar
    | none => false
  if e.kind == utf8 "alias" || isThere then
    let _ ← Engine.setValue e.name (.ofBytes e.value)

end Entry

namespace SnapshotStore

/-- Saves the identifiers of an interpreter under an id. -/
def save (store : SnapshotStore) (id label : Bytes) (now : Nat) :
    Engine (Except ArchiveError Bytes) := do
  let s ← get
  match store.insert { id, label, created := now, entries := s.collect } s.disk with
  | .error e => return .error e
  | .ok disk =>
      set { s with disk }
      return .ok id

/-- Writes the entries of a snapshot back, in the order of their names. -/
def load (store : SnapshotStore) (id : Bytes) : Engine (Except ArchiveError Unit) := do
  let s ← get
  match store.rows id s.disk with
  | .error e => return .error e
  | .ok (found, disk) =>
      set { s with disk }
      match found with
      | none => return .error (.notFound (some id))
      | some entries =>
          entries.forM Entry.restore
          return .ok ()

end SnapshotStore

namespace Archive

/-- The most bytes of the path of an archive. -/
def maxPath : Nat := 504

/-- The most bytes of the name of an archive: the file beside it that takes notes of a change has a
name that is longer by eight bytes. -/
def maxName : Nat := Disk.maxName - 8

/-- The snapshots of an archive, which is made if it is not there. -/
def openAt (d : Disk) (path : Bytes) : Except ArchiveError (List Snapshot × Disk) := do
  let path ← (Location.file path).mapError .badParameters
  if maxPath < path.length then .error .cannotOpen
  else
    let place ← (d.locate path).mapError fun _ => .cannotOpen
    match d.node? place with
    | some (.archive snapshots) => return (snapshots, d)
    | some (.file (_ :: _)) => .error .notArchive
    | some .folder => .error .cannotOpen
    | some (.file []) | none =>
        let d ← (d.replace path (.archive [])).mapError fun _ => .cannotOpen
        if place.getLast?.any fun name => maxName < name.length then .error .cannotWrite
        else return ([], d)

/-- The archive at a path. -/
def store (path : Bytes) : SnapshotStore where
  insert snapshot d := do
    let (snapshots, d) ← openAt d path
    (d.replace (Location.plain path) (.archive (snapshot :: snapshots))).mapError fun _ => .cannotOpen
  rows id d := do
    let (snapshots, d) ← openAt d path
    return ((snapshots.find? (·.id == id)).map fun s => s.entries.mergeSort Entry.before, d)

/-- An id for the snapshot with a number. -/
def idOf (n : Nat) : Bytes :=
  utf8 "00000000-0000-4000-8000-" ++ Bytes.padLeft 0x30 12 (Bytes.ofNat n)

/-- Saves the identifiers of an interpreter in an archive on its disk, and gives the id of the
snapshot. -/
def save (path label : Bytes) (now : Nat) : Engine (Except ArchiveError Bytes) := do
  match openAt (← get).disk path with
  | .error e => return .error e
  | .ok (snapshots, _) => (store path).save (idOf snapshots.length) label now

/-- The snapshots of an archive, the newest first. -/
def list (path : Bytes) : Engine (Except ArchiveError (List Snapshot)) := do
  let s ← get
  match openAt s.disk path with
  | .error e => return .error e
  | .ok (snapshots, disk) =>
      set { s with disk }
      return .ok snapshots

/-- Writes the entries of a snapshot back. -/
def load (path id : Bytes) : Engine (Except ArchiveError Unit) := (store path).load id

/-- The id of the newest snapshot. -/
def latest (path : Bytes) : Engine (Except ArchiveError Bytes) := do
  match ← list path with
  | .error e => return .error e
  | .ok [] => return .error (.notFound none)
  | .ok (snapshot :: _) => return .ok snapshot.id

end Archive

end ConsoleScript
