import ConsoleScript.Text.Quoted
import ConsoleScript.Bytecode.Instr

/-!
Blocks: named word streams, the operations that build them word by word, and the check that a
stream can be read. A built block begins with the start marker, jumps only go forward, and a block
literal is its header, the position of its body, the body and an exit.
-/

namespace ConsoleScript.Bytecode

/-- A word stream with its label for messages and, for a stored stream, the identifier names in
the order of their indices when it was compiled. -/
structure Block where
  name : Bytes := []
  words : Array UInt32
  idents : List Bytes := []
deriving DecidableEq, Repr, Inhabited

/-- Why a block cannot be read. -/
inductive ValidateError where
  | noStart (name : Bytes)
  | decode (e : DecodeError)
  | jumpPastEnd (pc target size : Nat)
  | blockPastEnd (pc : Nat)
deriving DecidableEq, Repr

def ValidateError.message : ValidateError → Bytes
  | .noStart name =>
      utf8 "bytecode: block " ++ Quoted.text name ++ utf8 " does not begin with START"
  | .decode e => e.message
  | .jumpPastEnd pc target size =>
      utf8 "bytecode: jump at " ++ Bytes.ofNat pc ++ utf8 " targets " ++ Bytes.ofNat target ++
        utf8 " past end " ++ Bytes.ofNat size
  | .blockPastEnd pc => utf8 "bytecode: block at " ++ Bytes.ofNat pc ++ utf8 " overruns stream"

/-- Why a block cannot be changed at a position. -/
inductive BuildError where
  | notJump (op : Bytes) (pos : Int)
  | backward (pos target : Int)
  | outOfRange
deriving DecidableEq, Repr

def BuildError.message : BuildError → Bytes
  | .notJump op pos =>
      utf8 "bytecode: patching non-jump " ++ op ++ utf8 " at " ++ Bytes.ofInt pos
  | .backward pos target =>
      utf8 "bytecode: backward jump from " ++ Bytes.ofInt pos ++ utf8 " to " ++ Bytes.ofInt target
  | .outOfRange => utf8 "runtime error"

namespace Block

/-- A block that holds the start marker only. -/
def start : Block := { words := #[Word.make .start .null 0] }

def size (b : Block) : Nat := b.words.size

/-- Appends a word. -/
def emit (b : Block) (w : UInt32) : Block := { b with words := b.words.push w }

def emitInstr (b : Block) (i : Instr) : Block :=
  { b with words := b.words ++ i.encode.toArray }

/-- The word at a position that may lie outside. -/
def wordAt? (b : Block) (pos : Int) : Option UInt32 :=
  if pos < 0 then none else b.words[pos.toNat]?

/-- Lets the jump at `pos` go to `target`. -/
def patchJumpTo (b : Block) (pos target : Int) : Except BuildError Block :=
  match b.wordAt? pos with
  | none => .error .outOfRange
  | some w =>
      if !((Word.op? w).any Op.isJump) then .error (.notJump (Word.opName (Word.opCode w)) pos)
      else if target < pos + 1 then .error (.backward pos target)
      else
        let rel := UInt32.ofNat (target - (pos + 1)).toNat
        let jump := (w &&& (0xFF : UInt32)) ||| (rel <<< (8 : UInt32))
        .ok { b with words := b.words.setIfInBounds pos.toNat jump }

/-- Lets the jump at `pos` go to the end. -/
def patchJump (b : Block) (pos : Int) : Except BuildError Block := b.patchJumpTo pos b.size

def beginLiteral (b : Block) : Block :=
  (b.emit (Word.make .block .null 0)).emit (Word.make .offset .null (UInt32.ofNat (b.size + 2)))

/-- Closes the block literal at `pos`: appends its exit and writes its length into its header. The
exit stays if there is no header at `pos`. -/
def endLiteral (b : Block) (pos : Int) (ret : RetTag) : Block × Option BuildError :=
  let b := b.emit (Word.make .exit ret 0)
  if pos < 0 || b.size ≤ pos.toNat then (b, some .outOfRange)
  else
    let span := UInt32.ofNat (b.size - (pos.toNat + 1))
    ({ b with words := b.words.setIfInBounds pos.toNat (Word.make .block .null span) }, none)

/-- Where the body of the block literal at `pos` begins, and where its exit is. -/
def literalBody (b : Block) (pos : Int) : Except BuildError (Int × Int) :=
  match b.wordAt? pos with
  | none => .error .outOfRange
  | some w => .ok (pos + 2, pos + (Word.arg w).toNat)

/-- Drops the words from `pos` on. -/
def truncate (b : Block) (pos : Int) : Except BuildError Block :=
  if pos < 0 || (b.size : Int) < pos then .error .outOfRange
  else .ok { b with words := b.words.extract 0 pos.toNat }

/-- Reads the instructions from `pc` to the end, with fuel for their number. -/
def validateFrom (words : Array UInt32) : Nat → Nat → Except ValidateError Unit
  | 0, _ => .ok ()
  | fuel + 1, pc =>
      if words.size ≤ pc then .ok ()
      else match decode words pc with
        | .error e => .error (.decode e)
        | .ok i =>
            if i.op.isJump && words.size < i.target pc then
              .error (.jumpPastEnd pc (i.target pc) words.size)
            else if i.op = .block && words.size < pc + 1 + i.arg.toNat then
              .error (.blockPastEnd pc)
            else validateFrom words fuel (pc + i.size)

/-- Every instruction can be read, and jumps and block literals end inside the stream. -/
def validate (b : Block) : Except ValidateError Unit :=
  match b.words[0]? with
  | some w =>
      if Word.opCode w == Op.start.code then validateFrom b.words (b.size + 1) 0
      else .error (.noStart b.name)
  | none => .error (.noStart b.name)

end Block

end ConsoleScript.Bytecode
