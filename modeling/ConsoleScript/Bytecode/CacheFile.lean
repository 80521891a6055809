import ConsoleScript.Bytecode.Cbor
import ConsoleScript.Bytecode.Listing

/-!
Files that hold a compiled block: a map from the numbers 1 to 6 to a mark, the format version, the
label of the block, the text it was compiled from, its words and the identifier names it was
compiled against. Empty labels, texts and name lists are left out. The reader fills the fields it
finds, ignores other keys and later entries for the same key, and then checks the mark, the version
and the words.
-/

namespace ConsoleScript.Bytecode

/-- The fields of a file. -/
structure CacheFile where
  mark : Bytes := []
  version : Nat := 0
  name : Bytes := []
  source : Bytes := []
  words : List UInt32 := []
  idents : List Bytes := []
deriving Repr

/-- Why a file is refused. -/
inductive CacheError where
  /-- The bytes are not a data item, or a field has a value of the wrong kind. -/
  | malformed
  | badMark (found : Bytes)
  | badVersion (found : Nat)
  | invalid (e : ValidateError)
deriving Repr

def CacheError.message : CacheError → Bytes
  | .malformed => utf8 "bytecode: unmarshal block"
  | .badMark found => utf8 "bytecode: bad magic " ++ Quoted.text found
  | .badVersion found =>
      utf8 "bytecode: unsupported version " ++ Bytes.ofNat found ++ utf8 " (want " ++
        Bytes.ofNat formatVersion ++ utf8 ")"
  | .invalid e => e.message

namespace CacheFile

def fileMark : Bytes := utf8 "CSBC"

def wordItem (w : UInt32) : Cbor := .uint (UInt64.ofNat w.toNat)

/-- The entries of a file. -/
def entries (f : CacheFile) : List (UInt64 × Cbor) :=
  [(1, .bytes f.mark), (2, .uint (UInt64.ofNat f.version))] ++
  (if f.name.isEmpty then [] else [(3, .text [f.name])]) ++
  (if f.source.isEmpty then [] else [(4, .text [f.source])]) ++
  [(5, .array (f.words.map wordItem))] ++
  if f.idents.isEmpty then [] else [(6, .array (f.idents.map fun n => .text [n]))]

def item (f : CacheFile) : Cbor := .map (f.entries.map fun e => (.uint e.1, e.2))

/-- The item under its tags. Tags with a fixed meaning must stand before an item of the right
kind; a tagged large number is given with its bytes. -/
inductive Untagged where
  | item (c : Cbor)
  | bignum (neg : Bool) (s : Bytes)

/-- The tag that marks a text as this format and means nothing else. -/
def selfDescribed : UInt64 := 55799

/-- A tag may stand before the item. -/
def tagFits (tag : UInt64) (item : Cbor) : Bool :=
  if tag == 0 then item matches .text _
  else if tag == 1 then item matches .uint _ | .negative _ | .float
  else if tag == 2 || tag == 3 then item matches .bytes _
  else true

/-- Every tag in front fits what follows it. -/
def tagsFit : Cbor → Bool
  | .tagged tag item => tagFits tag item && tagsFit item
  | _ => true

def dropSelfDescribed : Cbor → Cbor
  | .tagged tag item => if tag == selfDescribed then dropSelfDescribed item else .tagged tag item
  | c => c

/-- Removes the tags in front of an item. -/
def untag : Cbor → Option Untagged
  | .tagged tag item =>
      match item with
      | .bytes s =>
          if tag == 2 then some (.bignum false s)
          else if tag == 3 then some (.bignum true s)
          else some (.item (.bytes s))
      | item => untag item
  | c => some (.item c)

def open? (c : Cbor) : Option Untagged :=
  let c := dropSelfDescribed c
  if tagsFit c then untag c else none

/-- A number below `limit`; null leaves zero. -/
def number? (limit : Nat) (c : Cbor) : Option Nat :=
  let below (n : Nat) := if n < limit then some n else none
  match open? c with
  | some (.item (.uint n)) => below n.toNat
  | some (.item (.simple n)) => below n.toNat
  | some (.item .null) => some 0
  | some (.bignum false s) => below (Cbor.natOfBytes s)
  | _ => none

/-- A text of well-formed UTF-8 in every chunk; null leaves the empty text. -/
def text? (c : Cbor) : Option Bytes :=
  match open? c with
  | some (.item (.text chunks)) => if chunks.all Utf8.isValid then some chunks.flatten else none
  | some (.item .null) => some []
  | _ => none

/-- A list of items of one kind; null leaves the empty list. -/
def list? {α : Type} (item? : Cbor → Option α) (c : Cbor) : Option (List α) :=
  match open? c with
  | some (.item (.array items)) => items.mapM item?
  | some (.item .null) => some []
  | _ => none

/-- Bytes, as such or as a list of numbers. -/
def bytes? (c : Cbor) : Option Bytes :=
  match open? c with
  | some (.item (.bytes s)) => some s
  | some (.bignum _ s) => some s
  | _ => (list? (number? 256) c).map (·.map UInt8.ofNat)

/-- Fills one field. -/
def setField (f : CacheFile) (key : UInt64) (value : Cbor) : Option CacheFile :=
  if key == 1 then (bytes? value).map fun v => { f with mark := v }
  else if key == 2 then (number? 65536 value).map fun v => { f with version := v }
  else if key == 3 then (text? value).map fun v => { f with name := v }
  else if key == 4 then (text? value).map fun v => { f with source := v }
  else if key == 5 then
    (list? (number? 4294967296) value).map fun v => { f with words := v.map UInt32.ofNat }
  else if key == 6 then (list? text? value).map fun v => { f with idents := v }
  else some f

/-- The field that a key names: its number, or the numeral of it as a text. A negative key must have
64 bits with its sign. -/
def keyOf? : Cbor → Option UInt64
  | .uint n => some n
  | .negative n => if n < 0x8000000000000000 then some (~~~n) else none
  | .text chunks =>
      if chunks.all Utf8.isValid then
        match chunks.flatten with
        | [c] => if Byte.isDigit c then some (c.toNat - 0x30).toUInt64 else some 0
        | _ => some 0
      else none
  | _ => none

/-- Fills the fields from the entries; a key that was seen before is passed over. -/
def setFields : List UInt64 → CacheFile → List (Cbor × Cbor) → Option CacheFile
  | _, f, [] => some f
  | seen, f, (k, v) :: rest => do
      let key ← keyOf? k
      if seen.contains key then setFields seen f rest
      else setFields (key :: seen) (← setField f key v) rest

/-- The fields of a data item. -/
def ofCbor? (c : Cbor) : Option CacheFile :=
  match open? c with
  | some (.item (.map entries)) => setFields [] {} entries
  | some (.item .null) => some {}
  | _ => none

/-- The block of a file, if its mark, version and words are right. -/
def block (f : CacheFile) : Except CacheError Block :=
  if f.mark != fileMark then .error (.badMark f.mark)
  else if f.version != formatVersion then .error (.badVersion f.version)
  else
    let b : Block := { name := f.name, words := f.words.toArray, idents := f.idents }
    match b.validate with
    | .ok _ => .ok b
    | .error e => .error (.invalid e)

end CacheFile

/-- What is written of a block and the text it was compiled from. -/
def Block.cacheFile (b : Block) (source : Bytes) : CacheFile :=
  { mark := CacheFile.fileMark, version := formatVersion, name := b.name, source
    words := b.words.toList, idents := b.idents }

/-- The file of a block and the text it was compiled from. -/
def Block.toFile (b : Block) (source : Bytes) (codec : ItemCodec := Cbor.codec) : Bytes :=
  codec.write (b.cacheFile source).item

/-- The block in a file, with the text it was compiled from. -/
def Block.ofFile (s : Bytes) (codec : ItemCodec := Cbor.codec) :
    Except CacheError (Block × Bytes) :=
  match (codec.read? s).bind CacheFile.ofCbor? with
  | none => .error .malformed
  | some f => f.block.map fun b => (b, f.source)

end ConsoleScript.Bytecode
