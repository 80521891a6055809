import ConsoleScript.Bytecode.Cbor
import ConsoleScript.Disk

/-!
The bytes of an archive outside: a mark and the snapshots, each an array of its id, its label, the
time it was saved and its entries. Names and values may hold any bytes, so they are written as bytes
and not as texts.
-/

namespace ConsoleScript.ArchiveFile

/-- The mark of every archive. -/
def fileMark : Bytes := utf8 "CSSA"

def entryItem (e : Entry) : Cbor := .array [.bytes e.name, .bytes e.kind, .bytes e.value]

def snapshotItem (s : Snapshot) : Cbor :=
  .array [.bytes s.id, .bytes s.label, .uint (UInt64.ofNat s.created),
    .array (s.entries.map entryItem)]

def encode (snapshots : List Snapshot) : Bytes :=
  Cbor.encode (.array [.bytes fileMark, .array (snapshots.map snapshotItem)])

def entry? : Cbor → Option Entry
  | .array [.bytes name, .bytes kind, .bytes value] => some ⟨name, kind, value⟩
  | _ => none

def snapshot? : Cbor → Option Snapshot
  | .array [.bytes id, .bytes label, .uint created, .array entries] =>
      (entries.mapM entry?).map fun es => ⟨id, label, created.toNat, es⟩
  | _ => none

/-- The snapshots in the bytes of an archive; nothing if the bytes are something else. -/
def decode? (s : Bytes) : Option (List Snapshot) :=
  match Cbor.read? s with
  | some (.array [.bytes mark, .array snapshots]) =>
      if mark == fileMark then snapshots.mapM snapshot? else none
  | _ => none

/-- What the bytes of a file hold. -/
def node (content : Bytes) : Node := match decode? content with
  | some snapshots => .archive snapshots
  | none => .file content

/-- The bytes of what is at a place; a folder has none. -/
def content? : Node → Option Bytes
  | .folder => none
  | .file content => some content
  | .archive snapshots => some (encode snapshots)

end ConsoleScript.ArchiveFile
