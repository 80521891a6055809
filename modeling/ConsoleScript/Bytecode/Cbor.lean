import ConsoleScript.Text.Utf8

/-!
Concise binary object representation: data items as a tree, their canonical bytes, and a reader
that accepts every well-formed item within fixed limits on nesting and size. Strings of indefinite
length are read as the list of their chunks.
-/

namespace ConsoleScript

/-- A data item. -/
inductive Cbor where
  | uint (n : UInt64)
  /-- The integer `-1 - n`. -/
  | negative (n : UInt64)
  | bytes (s : Bytes)
  /-- A text in chunks; a text of definite length is one chunk. -/
  | text (chunks : List Bytes)
  | array (items : List Cbor)
  | map (entries : List (Cbor × Cbor))
  | tagged (tag : UInt64) (item : Cbor)
  /-- A simple value without a meaning of its own. -/
  | simple (n : UInt64)
  | bool (b : Bool)
  | null
  /-- A floating-point number. -/
  | float
deriving Repr, Inhabited

namespace Cbor

/-- The number in `width` bytes, most significant first. -/
def bigEndian : (width n : Nat) → Bytes
  | 0, _ => []
  | width + 1, n => UInt8.ofNat (n / Nat.pow 256 width % 256) :: bigEndian width n

/-- The shortest head of an item: its major type and a number. -/
def head (major n : Nat) : Bytes :=
  if n < 24 then [UInt8.ofNat (major * 32 + n)]
  else if n < 256 then UInt8.ofNat (major * 32 + 24) :: bigEndian 1 n
  else if n < 65536 then UInt8.ofNat (major * 32 + 25) :: bigEndian 2 n
  else if n < 4294967296 then UInt8.ofNat (major * 32 + 26) :: bigEndian 4 n
  else UInt8.ofNat (major * 32 + 27) :: bigEndian 8 n

/-- The bytes of an item, with definite lengths. A floating-point number, of which nothing is known
here, is written as one that is none. -/
def encode : Cbor → Bytes
  | .uint n => head 0 n.toNat
  | .negative n => head 1 n.toNat
  | .bytes s => head 2 s.length ++ s
  | .text chunks => head 3 chunks.flatten.length ++ chunks.flatten
  | .array items => head 4 items.length ++ (items.map fun c => encode c).flatten
  | .map entries =>
      head 5 entries.length ++ (entries.flatMap fun e => [encode e.1, encode e.2]).flatten
  | .tagged tag item => head 6 tag.toNat ++ encode item
  | .simple n => head 7 n.toNat
  | .bool b => head 7 (if b then 21 else 20)
  | .null => head 7 22
  | .float => [0xF9, 0x7E, 0x00]
termination_by c => c
decreasing_by
  all_goals try decreasing_tactic
  all_goals
    have hlt := List.sizeOf_lt_of_mem ‹e ∈ entries›
    rcases e with ⟨k, v⟩
    simp only [map.sizeOf_spec, Prod.mk.sizeOf_spec] at hlt ⊢
    omega

/-- Items may be nested this deep. -/
def maxDepth : Nat := 32

/-- Arrays may have this many items, and maps this many entries. -/
def maxCount : Nat := 131072

/-- The number in a text of bytes, most significant first. -/
def natOfBytes (s : Bytes) : Nat := s.foldl (fun n b => n * 256 + b.toNat) 0

/-- The head of an item: major type, additional information, number, and the rest. -/
def head? : Bytes → Option (Nat × Nat × Nat × Bytes)
  | [] => none
  | b :: s =>
      let major := b.toNat / 32
      let info := b.toNat % 32
      let wide (width : Nat) :=
        if width ≤ s.length then some (major, info, natOfBytes (s.take width), s.drop width)
        else none
      if info < 24 then some (major, info, info, s)
      else if info == 24 then
        (wide 1).bind fun h => if major == 7 && h.2.2.1 < 32 then none else some h
      else if info == 25 then wide 2
      else if info == 26 then wide 4
      else if info == 27 then wide 8
      else if info == 31 && 2 ≤ major && major ≤ 5 then some (major, info, 0, s)
      else none

/-- Chunks of a string of indefinite length up to its end mark. -/
def chunks? (major : Nat) : Nat → Bytes → Option (List Bytes × Bytes)
  | 0, _ => none
  | fuel + 1, s => match s with
    | 0xFF :: rest => some ([], rest)
    | _ => do
        let (m, info, n, rest) ← head? s
        if m != major || info == 31 || rest.length < n then none
        let (more, rest') ← chunks? major fuel (rest.drop n)
        return (rest.take n :: more, rest')

/-- Reads `n` items one after another. -/
def readMany (read : Bytes → Option (Cbor × Bytes)) : Nat → Bytes → Option (List Cbor × Bytes)
  | 0, s => some ([], s)
  | n + 1, s => do
      let (item, s) ← read s
      let (more, s) ← readMany read n s
      return (item :: more, s)

/-- Reads items up to an end mark; the fuel bounds their number. -/
def readUntilBreak (read : Bytes → Option (Cbor × Bytes)) :
    Nat → Bytes → Option (List Cbor × Bytes)
  | 0, _ => none
  | fuel + 1, s => match s with
    | 0xFF :: rest => some ([], rest)
    | _ => do
        let (item, s) ← read s
        let (more, s) ← readUntilBreak read fuel s
        return (item :: more, s)

/-- Pairs neighbours; the number of items must be even. -/
def pairUp : List Cbor → Option (List (Cbor × Cbor))
  | [] => some []
  | [_] => none
  | k :: v :: rest => (pairUp rest).map ((k, v) :: ·)

/-- Tags at the beginning, each with its number, and what follows them; the fuel bounds their
number. -/
def takeTags : Nat → Bytes → Option (List UInt64 × Bytes)
  | 0, s => some ([], s)
  | fuel + 1, s => match s with
    | b :: _ =>
        if b.toNat / 32 != 6 then some ([], s)
        else do
          let (_, _, n, rest) ← head? s
          let (more, rest) ← takeTags fuel rest
          return (UInt64.ofNat n :: more, rest)
    | [] => some ([], [])

/-- An item of major type 7. -/
def ofSimple (info n : Nat) : Cbor :=
  if info == 20 || info == 21 then .bool (info == 21)
  else if info == 22 || info == 23 then .null
  else if 25 ≤ info then .float
  else .simple (UInt64.ofNat n)

/-- Reads an item that lies `depth` levels deep. A tag on a tag is a level, as are arrays and maps;
the fuel bounds the nesting in any case. -/
def readItem : (fuel depth : Nat) → Bytes → Option (Cbor × Bytes)
  | 0, _, _ => none
  | fuel + 1, depth, s => do
      let (tags, s) ← takeTags s.length s
      let depth := depth + (tags.length - 1)
      let (major, info, n, rest) ← head? s
      let indefinite := info == 31
      let (item, rest) ← match major with
        | 0 => some (uint (UInt64.ofNat n), rest)
        | 1 => some (negative (UInt64.ofNat n), rest)
        | 2 =>
            if indefinite then (chunks? 2 (rest.length + 1) rest).map fun (cs, r) =>
              (bytes cs.flatten, r)
            else if rest.length < n then none
            else some (bytes (rest.take n), rest.drop n)
        | 3 =>
            if indefinite then (chunks? 3 (rest.length + 1) rest).map fun (cs, r) => (text cs, r)
            else if rest.length < n then none
            else some (text [rest.take n], rest.drop n)
        | 4 =>
            if !indefinite && (maxCount < n || rest.length < n) then none
            else
              let read := readItem fuel (depth + 1)
              let items := if indefinite then readUntilBreak read (rest.length + 1) rest
                else readMany read n rest
              items.bind fun (xs, r) => if maxCount < xs.length then none else some (array xs, r)
        | 5 =>
            if !indefinite && (maxCount < n || rest.length < n) then none
            else
              let read := readItem fuel (depth + 1)
              let items := if indefinite then readUntilBreak read (rest.length + 1) rest
                else readMany read (2 * n) rest
              items.bind fun (xs, r) =>
                if 2 * maxCount < xs.length then none else (pairUp xs).map fun es => (map es, r)
        | 7 => some (ofSimple info n, rest)
        | _ => none
      let nests := major == 4 || major == 5
      if maxDepth < (if nests then depth + 1 else depth) then none
      else return (tags.foldr tagged item, rest)

/-- Reads a text that is one item and nothing else. -/
def read? (s : Bytes) : Option Cbor :=
  match readItem (maxDepth + 2) 0 s with
  | some (item, []) => some item
  | _ => none

end Cbor

/-- A writer and a reader of data items, such as a library has. -/
structure ItemCodec where
  write : Cbor → Bytes
  read? : Bytes → Option Cbor

def Cbor.codec : ItemCodec := ⟨encode, Cbor.read?⟩

end ConsoleScript
