import ConsoleScript.Text.Bytes
import ConsoleScript.Bytecode.Op

/-!
The layout of a word: six bits of operation code, two bits of return tag, and an operand of 24
bits. The operand of a call has the number of arguments in its lowest five bits and an identifier
index above them. Values that do not fit their field lose their upper bits.
-/

namespace ConsoleScript.Bytecode

/-- The type that the value of an instruction is converted to; null leaves it as it is. -/
inductive RetTag where
  | null
  | int
  | float
  | text
deriving DecidableEq, Repr, Inhabited

namespace RetTag

/-- The two bits of a tag. -/
def code (r : RetTag) : UInt32 := UInt32.ofNat r.ctorIdx

/-- The tag of the lowest two bits. -/
def ofCode (c : UInt32) : RetTag :=
  if c &&& 3 == 0 then .null else if c &&& 3 == 1 then .int
  else if c &&& 3 == 2 then .float else .text

/-- The letter of a tag in listings. -/
def letter : RetTag → String
  | .null => ""
  | .int => "i"
  | .float => "f"
  | .text => "s"

end RetTag

namespace Word

/-- Joins the three fields. -/
def pack (op ret arg : UInt32) : UInt32 := op ||| (ret <<< 6) ||| (arg <<< 8)

/-- The word of an instruction. -/
def make (op : Op) (ret : RetTag) (arg : UInt32) : UInt32 := pack op.code ret.code arg

def callOperand (argc index : UInt32) : UInt32 :=
  (argc &&& (0x1F : UInt32)) ||| (index <<< (5 : UInt32))

def opCode (w : UInt32) : UInt32 := w &&& 0x3F

def op? (w : UInt32) : Option Op := Op.ofCode? (opCode w)

def ret (w : UInt32) : RetTag := RetTag.ofCode (w >>> 6)

def arg (w : UInt32) : UInt32 := w >>> 8

/-- The number of arguments of a call. -/
def callArgc (w : UInt32) : Nat := ((w >>> 8) &&& 0x1F).toNat

def callIndex (w : UInt32) : Nat := (w >>> 13).toNat

/-- The name of an operation code, also of one that is not in use. -/
def opName (c : UInt32) : Bytes :=
  match Op.ofCode? c with
  | some op => utf8 op.info.name
  | none => utf8 "UNKNOWN(0x" ++ Bytes.padLeft 0x30 2 (Bytes.ofNatHex c.toNat) ++ utf8 ")"

/-- The letter of a word that is a bare tag, or its number if it is not. -/
def tagLabel (w : UInt32) : Bytes :=
  if w == RetTag.code (ret w) <<< 6 then utf8 (ret w).letter
  else utf8 "Ret(" ++ Bytes.ofNat (w >>> 6).toNat ++ utf8 ")"

end Word

end ConsoleScript.Bytecode
