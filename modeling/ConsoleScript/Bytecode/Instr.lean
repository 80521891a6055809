import ConsoleScript.Number.Single
import ConsoleScript.Bytecode.Word

/-!
Instructions and their words. An instruction takes one word, except that a literal which does not
fit its operand follows in further words: one for a number, and for a text its bytes, four to a
word from the lowest byte up, with room for a zero byte at the end. Decoding reads one instruction
at a position and fails if its words are not all there or its code is not in use.
-/

namespace ConsoleScript.Bytecode

/-- The literal that an instruction carries. -/
inductive Literal where
  | null
  | int (i : Int32)
  | float (x : Single)
  | text (s : Bytes)
deriving DecidableEq, Repr

/-- An instruction: its operation, tag, operand, literal, and the number of words it takes. -/
structure Instr where
  op : Op
  ret : RetTag
  arg : UInt32
  lit : Literal := .null
  size : Nat := 1
deriving DecidableEq, Repr

namespace Instr

/-- The number of arguments of a call. -/
def argc (i : Instr) : Nat := (i.arg &&& 0x1F).toNat

def index (i : Instr) : Nat :=
  if i.op.info.operand = .call then (i.arg >>> 5).toNat else i.arg.toNat

/-- Where a jump at `pc` goes. -/
def target (i : Instr) (pc : Nat) : Nat := pc + i.size + i.arg.toNat

end Instr

/-- Integers that fit the operand. -/
def canInlineInt (i : Int32) : Bool := -0x800000 ≤ i && i ≤ 0x7FFFFF

/-- Whole floats that fit the operand. -/
def canInlineFloat (x : Single) : Bool :=
  x.eq (Single.ofInt32 x.toInt32) && canInlineInt x.toInt32

/-- Texts of at most three bytes, none of them zero, fit the operand. -/
def canInlineText (s : Bytes) : Bool := s.length ≤ 3 && s.all (· != 0)

def textWords (n : Nat) : Nat := n / 4 + 1

/-- Up to four bytes as a number, the first byte lowest. -/
def packBytes : Bytes → UInt32
  | [] => 0
  | b :: s => b.toUInt32 ||| (packBytes s <<< 8)

def packText : Bytes → List UInt32
  | a :: b :: c :: d :: s => packBytes [a, b, c, d] :: packText s
  | s => [packBytes s]

/-- The lowest `n` bytes of a word, the lowest first. -/
def unpackBytes : Nat → UInt32 → Bytes
  | 0, _ => []
  | n + 1, w => w.toUInt8 :: unpackBytes n (w >>> 8)

/-- The first `n` bytes of the words. -/
def unpackText : Nat → List UInt32 → Bytes
  | n + 4, w :: ws => unpackBytes 4 w ++ unpackText n ws
  | n, w :: _ => unpackBytes n w
  | _, [] => []

/-- The text of an operand: up to three bytes, ending before a zero. -/
def unpackInline (arg : UInt32) : Bytes := (unpackBytes 3 arg).takeWhile (· != 0)

def signedArg (w : UInt32) : Int32 := w.toInt32 >>> 8

namespace Instr

/-- The operand of a literal that fits it. -/
def inlineArg : Literal → UInt32
  | .null => 0
  | .int i => i.toUInt32 &&& 0xFFFFFF
  | .float x => x.toInt32.toUInt32 &&& 0xFFFFFF
  | .text s => packBytes (s.take 3)

/-- The words of an instruction. A literal instruction is determined by its literal, any other one
by its operand. -/
def encode (i : Instr) : List UInt32 :=
  match i.op with
  | .valInline => [Word.make .valInline i.ret (inlineArg i.lit)]
  | .val => match i.lit with
    | .null => [Word.make .val i.ret 0]
    | .int n => [Word.make .val i.ret 0, n.toUInt32]
    | .float x => [Word.make .val i.ret 0, x.bits]
    | .text s => Word.make .val i.ret (UInt32.ofNat s.length) :: packText s
  | .view => match i.lit with
    | .text s => Word.make .view i.ret (UInt32.ofNat s.length) :: packText s
    | _ => Word.make .view i.ret 0 :: packText []
  | op => [Word.make op i.ret i.arg]

/-- An integer literal, in the operand if it fits. -/
def ofInt (i : Int32) : Instr :=
  if canInlineInt i then ⟨.valInline, .int, inlineArg (.int i), .int i, 1⟩
  else ⟨.val, .int, 0, .int i, 2⟩

/-- A float literal, in the operand if it fits. -/
def ofFloat (x : Single) : Instr :=
  if canInlineFloat x then ⟨.valInline, .float, inlineArg (.float x), .float x, 1⟩
  else ⟨.val, .float, 0, .float x, 2⟩

/-- A text literal, in the operand if it fits. -/
def ofText (s : Bytes) : Instr :=
  if canInlineText s then ⟨.valInline, .text, inlineArg (.text s), .text s, 1⟩
  else ⟨.val, .text, UInt32.ofNat s.length, .text s, 1 + textWords s.length⟩

/-- A text literal that is pushed as a view. -/
def ofView (s : Bytes) : Instr :=
  ⟨.view, .null, UInt32.ofNat s.length, .text s, 1 + textWords s.length⟩

/-- An instruction that is one word. -/
def plain (op : Op) (ret : RetTag := .null) (arg : Nat := 0) : Instr :=
  ⟨op, ret, UInt32.ofNat arg, .null, 1⟩

def call (op : Op) (ret : RetTag) (argc index : Nat) : Instr :=
  ⟨op, ret, Word.callOperand (UInt32.ofNat argc) (UInt32.ofNat index), .null, 1⟩

end Instr

/-- Why no instruction can be read at a position. -/
inductive DecodeError where
  /-- The stream ends before the instruction does. -/
  | truncated (pc : Int)
  /-- The stream ends before the text of `n` bytes at `start` does. -/
  | truncatedText (n start : Nat)
  /-- The operation code is not in use. -/
  | unknownOp (code : UInt32) (pc : Nat)
deriving DecidableEq, Repr

namespace DecodeError

def message : DecodeError → Bytes
  | .truncated pc => utf8 "bytecode: truncated instruction at " ++ Bytes.ofInt pc
  | .truncatedText n start =>
      utf8 "bytecode: truncated instruction: string of " ++ Bytes.ofNat n ++
        utf8 " bytes at " ++ Bytes.ofNat start
  | .unknownOp c pc =>
      utf8 "bytecode: unknown opcode 0x" ++ Bytes.padLeft 0x30 2 (Bytes.ofNatHex c.toNat) ++
        utf8 " at " ++ Bytes.ofNat pc

/-- The stream ended too early. -/
def isTruncation : DecodeError → Bool
  | .unknownOp .. => false
  | _ => true

end DecodeError

def textAt (words : Array UInt32) (start n : Nat) : Except DecodeError Bytes :=
  if start + textWords n ≤ words.size then
    .ok (unpackText n (words.extract start (start + textWords n)).toList)
  else .error (.truncatedText n start)

/-- The instruction at a position. -/
def decode (words : Array UInt32) (pc : Nat) : Except DecodeError Instr :=
  match words[pc]? with
  | none => .error (.truncated pc)
  | some w =>
      let ret := Word.ret w
      let arg := Word.arg w
      match Word.op? w with
      | none => .error (.unknownOp (Word.opCode w) pc)
      | some .valInline =>
          let lit := match ret with
            | .null => .null
            | .int => .int (signedArg w)
            | .float => .float (Single.ofInt32 (signedArg w))
            | .text => .text (unpackInline arg)
          .ok ⟨.valInline, ret, arg, lit, 1⟩
      | some .val => match ret, words[pc + 1]? with
        | .null, _ => .ok ⟨.val, ret, arg, .null, 1⟩
        | .int, some v => .ok ⟨.val, ret, arg, .int v.toInt32, 2⟩
        | .float, some v => .ok ⟨.val, ret, arg, .float ⟨v⟩, 2⟩
        | .text, _ => do
            let s ← textAt words (pc + 1) arg.toNat
            return ⟨.val, ret, arg, .text s, 1 + textWords arg.toNat⟩
        | _, none => .error (.truncated pc)
      | some .view => do
          let s ← textAt words (pc + 1) arg.toNat
          return ⟨.view, ret, arg, .text s, 1 + textWords arg.toNat⟩
      | some op => .ok ⟨op, ret, arg, .null, 1⟩

/-- As `decode`, at a position that may be before the stream. -/
def decodeAt (words : Array UInt32) (pc : Int) : Except DecodeError Instr :=
  if pc < 0 then .error (.truncated pc) else decode words pc.toNat

end ConsoleScript.Bytecode
