import ConsoleScript.Number.Printing
import ConsoleScript.Number.Reading
import ConsoleScript.Bytecode.Block

/-!
Values of the language: nothing, integers, floats, texts, code and references to identifiers.
Every value converts to every plain type: texts are read as numbers, numbers are printed, and code
and references count as nothing. A text is owned, or a view of text held by an identifier or by
compiled code; only the name of its type shows the difference.
-/

namespace ConsoleScript

open Bytecode (Block RetTag)

/-- Who holds the bytes of a text. -/
inductive TextKind where
  | owned
  /-- A view of a variable or an alias. -/
  | view
  /-- A view of a literal in compiled code. -/
  | literal
deriving DecidableEq, Repr

/-- A value. -/
inductive Value where
  | null
  | int (i : Int32)
  | float (x : Single)
  | text (kind : TextKind) (s : Bytes)
  /-- The code of a block from a position up to the matching exit. -/
  | code (block : Block) (pc : Nat)
  /-- The identifier with an index. -/
  | ident (index : Nat)
deriving DecidableEq, Repr, Inhabited

namespace Value

/-- An owned text. -/
def ofBytes (s : Bytes) : Value := .text .owned s

/-- One or zero. -/
def ofBool (b : Bool) : Value := .int (if b then 1 else 0)

def isNull : Value → Bool
  | .null => true
  | _ => false

def isCode : Value → Bool
  | .code .. => true
  | _ => false

def text? : Value → Option Bytes
  | .text _ s => some s
  | _ => none

/-- The index of a reference. -/
def ident? : Value → Option Nat
  | .ident i => some i
  | _ => none

def toBytes : Value → Bytes
  | .text _ s => s
  | .int i => Printing.int i
  | .float x => Printing.float x
  | _ => []

def toInt : Value → Int32
  | .int i => i
  | .float x => x.toInt32
  | .text _ s => Reading.int s
  | _ => 0

def toSingle : Value → Single
  | .float x => x
  | .int i => Single.ofInt32 i
  | .text _ s => Reading.single s
  | _ => Single.zero

/-- The number in double precision. -/
def toNumber : Value → Float
  | .float x => x.toFloat
  | .int i => Reading.floatOfNat (Ieee.double.round (i < 0) i.toInt.natAbs 0)
  | .text _ s => Reading.number s
  | _ => 0

def toBool : Value → Bool
  | .float x => x.isTrue
  | .int i => i != 0
  | .text _ s => Reading.isTrue s
  | _ => false

/-- The value on its own: texts become owned, and code and references are dropped. -/
def settle : Value → Value
  | .text _ s => .text .owned s
  | .int i => .int i
  | .float x => .float x
  | _ => .null

/-- As `settle`, but texts become views. -/
def settleView : Value → Value
  | .text _ s => .text .view s
  | .int i => .int i
  | .float x => .float x
  | _ => .null

/-- Converts to the type of a tag; the null tag leaves the value as it is. -/
def force (ret : RetTag) (v : Value) : Value :=
  match ret with
  | .null => v
  | .int => .int v.toInt
  | .float => .float v.toSingle
  | .text => .text .owned v.toBytes

/-- The value of a tag's type that stands for nothing; a text is a view if `view`. -/
def absent (ret : RetTag) (view : Bool) : Value :=
  match ret with
  | .null => .null
  | .int => .int 0
  | .float => .float Single.zero
  | .text => .text (if view then .view else .owned) []

/-- A stored value as a look-up of a tag's type gives it. -/
def lookedUp (ret : RetTag) (view : Bool) (v : Value) : Value :=
  match ret with
  | .null => if view then v.settleView else v.settle
  | .int => .int v.toInt
  | .float => .float v.toSingle
  | .text => .text (if view then .view else .owned) v.toBytes

/-- The texts of the values, with blanks between them if `spaced`. -/
def join (spaced : Bool) (vs : List Value) : Bytes :=
  Bytes.joinWith (if spaced then [0x20] else []) (vs.map toBytes)

/-- The value for a reader: what is no plain value is shown between angle brackets. -/
def describe (nameOf : Nat → Bytes) : Value → Bytes
  | .null => utf8 "<null>"
  | .code _ pc => utf8 "<code " ++ Bytes.ofNat pc ++ utf8 ">"
  | .ident i => utf8 "<ident " ++ nameOf i ++ utf8 ">"
  | v => v.toBytes

/-- The name of the type. -/
def typeName : Value → String
  | .null => "null"
  | .int _ => "int"
  | .float _ => "float"
  | .text .owned _ => "str"
  | .text .view _ => "cstr"
  | .text .literal _ => "macro"
  | .code .. => "code"
  | .ident _ => "ident"

end Value

/-- Names of value types and of the requests for them, by number. -/
def typeNames : List String :=
  ["null", "int", "float", "str", "any", "code", "macro", "ident", "cstr", "cany", "word", "pop",
    "cond"]

def typeNameOf (n : Nat) : Bytes :=
  match typeNames[n]? with
  | some s => utf8 s
  | none => utf8 "Type(" ++ Bytes.ofNat n ++ utf8 ")"

end ConsoleScript
