import ConsoleScript.Disk.Path
import ConsoleScript.Persist.Entry

/-!
The files that an interpreter and its command line see: a tree of folders, files and archives of
snapshots, with a folder that relative paths start from. A path is followed component by component,
so every folder on the way has to be there.
-/

namespace ConsoleScript

/-- What is found at a place. -/
inductive Node where
  | folder
  | file (content : Bytes)
  /-- Snapshots, the newest first. -/
  | archive (snapshots : List Snapshot)

/-- The nodes below the root by the components of their paths. -/
structure Disk where
  cwd : List Bytes := []
  nodes : List (List Bytes × Node) := []

/-- Why a file cannot be used. -/
inductive FileError where
  | missing
  | isFolder
  | notFolder
  | exists
  /-- A component of the path, or all of it, is too long. -/
  | tooLong
  /-- The path holds a zero byte. -/
  | invalid
deriving DecidableEq, Repr

def FileError.message : FileError → Bytes
  | .missing => utf8 "no such file or directory"
  | .isFolder => utf8 "is a directory"
  | .notFolder => utf8 "not a directory"
  | .exists => utf8 "file exists"
  | .tooLong => utf8 "file name too long"
  | .invalid => utf8 "invalid argument"

namespace Disk

/-- The node at a place; the root is a folder. -/
def node? (d : Disk) (place : List Bytes) : Option Node :=
  if place.isEmpty then some .folder else d.nodes.lookup place

def put (d : Disk) (place : List Bytes) (n : Node) : Disk :=
  { d with nodes := (place, n) :: d.nodes.filter (·.1 != place) }

/-- Takes a node away. -/
def erase (d : Disk) (place : List Bytes) : Disk :=
  { d with nodes := d.nodes.filter (·.1 != place) }

/-- The most bytes of a component. -/
def maxName : Nat := 255

/-- The most bytes of a path. -/
def maxPath : Nat := 4095

/-- Follows components from a folder; the last one need not be there. The place comes with its
last component first. -/
def follow (d : Disk) : (place : List Bytes) → List Bytes → Except FileError (List Bytes)
  | place, [] => .ok place
  | place, p :: rest =>
      match d.node? place.reverse with
      | none => .error .missing
      | some .folder =>
          if p == Path.dots then follow d place.tail rest
          else if maxName < p.length then .error .tooLong
          else follow d (p :: place) rest
      | some _ => .error .notFolder

/-- The place that a path names. A path that can only name a folder names no file. -/
def locate (d : Disk) (path : Bytes) : Except FileError (List Bytes) := do
  if path.contains 0 then .error .invalid
  else if path.isEmpty then .error .missing
  else if maxPath < path.length then .error .tooLong
  else
    let start := if Path.isAbsolute path then [] else d.cwd
    let place := (← d.follow start.reverse (Path.components path)).reverse
    match Path.namesFolder path, d.node? place with
    | false, _ | true, none | true, some .folder => return place
    | true, some _ => .error .notFolder

/-- The path of the folder that relative paths start from. -/
def cwdPath (d : Disk) : Bytes := Path.slash :: Bytes.joinWith [Path.slash] d.cwd

/-- Whether there is something at a path. -/
def isThere (d : Disk) (path : Bytes) : Bool :=
  match d.locate path with
  | .ok place => (d.node? place).isSome
  | .error _ => false

/-- The content of a file. An archive reads as an empty one. -/
def read (d : Disk) (path : Bytes) : Except FileError Bytes := do
  let place ← d.locate path
  match d.node? place with
  | none => .error .missing
  | some .folder => .error .isFolder
  | some (.file content) => return content
  | some (.archive _) => return []

/-- Puts a node where there is none or where there is no folder. -/
def replace (d : Disk) (path : Bytes) (n : Node) : Except FileError Disk := do
  let place ← d.locate path
  match d.node? place with
  | some .folder => .error .isFolder
  | some _ => return d.put place n
  | none => match d.node? place.dropLast with
    | some .folder => if Path.namesFolder path then .error .isFolder else return d.put place n
    | some _ => .error .notFolder
    | none => .error .missing

def write (d : Disk) (path content : Bytes) : Except FileError Disk :=
  d.replace path (.file content)

/-- Makes the folder at a path if there is none. -/
def makeFolder (d : Disk) (path : Bytes) : Except FileError Disk := do
  let place ← d.locate path
  match d.node? place with
  | some .folder => return d
  | some _ => .error .notFolder
  | none => return d.put place .folder

/-- Makes the folders on the way to a path and the last one, each within the one before it. With
an error comes the path of the folder that cannot be made. -/
def makeFoldersFrom (d : Disk) : (dir : Bytes) → List Bytes → Except (Bytes × FileError) Disk
  | _, [] => .ok d
  | dir, p :: rest => do
      let path := dir ++ p
      let d ← (d.makeFolder path).mapError (path, ·)
      makeFoldersFrom d (path ++ [Path.slash]) rest

/-- Makes a folder and those on the way to it. -/
def makeFolders (d : Disk) (path : Bytes) : Except (Bytes × FileError) Disk :=
  d.makeFoldersFrom (if Path.isAbsolute path then [Path.slash] else []) (Path.components path)

/-- Moves a file over another one. -/
def rename (d : Disk) (old new : Bytes) : Except FileError Disk := do
  let source ← d.locate old
  let target ← d.locate new
  match d.node? source, d.node? target with
  | none, _ => .error .missing
  | some _, some .folder => .error .exists
  | some n, _ => return (d.erase source).put target n

end Disk

end ConsoleScript
