import ConsoleScript.Number.Printing
import ConsoleScript.Bytecode.Block

/-!
Listings of blocks for readers: a heading, then a line for each instruction with its position, the
operation, its tag and its operand, indented inside block literals. Identifier operands can be
followed by names. A word that cannot be read ends the listing.
-/

namespace ConsoleScript.Bytecode

def formatVersion : Nat := 1

namespace Listing

/-- Long texts are cut. -/
def shorten (s : Bytes) : Bytes := if 40 < s.length then s.take 37 ++ utf8 "..." else s

def hexPos (pc : Nat) : Bytes := Bytes.padLeft 0x30 4 (Bytes.ofNatHex pc)

def nameComment (nameOf : Nat → Bytes) (index : Nat) : Bytes :=
  let name := nameOf index
  if name.isEmpty then [] else utf8 " ; " ++ name

/-- The literal of an instruction. -/
def literal : Literal → Bytes
  | .null => []
  | .int i => utf8 " " ++ Printing.int i
  | .float x => utf8 " " ++ Printing.listed x
  | .text s => utf8 " " ++ Quoted.text (shorten s)

/-- One instruction at `pc`. -/
def instr (nameOf : Nat → Bytes) (pc : Nat) (i : Instr) : Bytes :=
  let info := i.op.info
  let head := utf8 info.name ++
    if i.ret ≠ .null && info.returns then utf8 "|" ++ utf8 i.ret.letter else []
  let number := utf8 " " ++ Bytes.ofNat i.arg.toNat
  match info.operand with
  | .none => head
  | .ident => head ++ utf8 " " ++ Bytes.ofNat i.index ++ nameComment nameOf i.index
  | .call =>
      head ++ utf8 " " ++ Bytes.ofNat i.index ++ utf8 " argc=" ++ Bytes.ofNat i.argc ++
        nameComment nameOf i.index
  | .count => head ++ number
  | .jump =>
      head ++ utf8 " +" ++ Bytes.ofNat i.arg.toNat ++ utf8 " (-> " ++ hexPos (i.target pc) ++
        utf8 ")"
  | .span =>
      head ++ utf8 " len=" ++ Bytes.ofNat i.arg.toNat ++ utf8 " (-> " ++
        hexPos (pc + 1 + i.arg.toNat) ++ utf8 ")"
  | .bytes | .literal => head ++ literal i.lit

/-- The lines from `pc` on; `ends` are the last positions of the open block literals, innermost
first, and the fuel bounds the number of lines. -/
def linesFrom (nameOf : Nat → Bytes) (words : Array UInt32) : Nat → List Nat → Nat → Bytes
  | 0, _, _ => []
  | fuel + 1, ends, pc =>
      if words.size ≤ pc then []
      else
        let ends := ends.dropWhile (· < pc)
        let place := hexPos pc ++ utf8 "  "
        match decode words pc with
        | .error e => place ++ utf8 "<" ++ e.message ++ utf8 ">\n"
        | .ok i =>
            let indent := List.replicate (2 * ends.length) 0x20
            let deeper := if i.op = .block then (pc + i.arg.toNat) :: ends else ends
            place ++ indent ++ instr nameOf pc i ++ utf8 "\n" ++
              linesFrom nameOf words fuel deeper (pc + i.size)

end Listing

/-- The listing of a block. An identifier without a name has the empty text as its name. -/
def Block.listing (b : Block) (nameOf : Nat → Bytes := fun _ => []) : Bytes :=
  (if b.name.isEmpty then [] else utf8 "; === " ++ b.name ++ utf8 " ===\n") ++
    utf8 "; CubeScript Bytecode v" ++ Bytes.ofNat formatVersion ++ utf8 "\n; Words: " ++
    Bytes.ofNat b.size ++ utf8 "\n\n" ++ Listing.linesFrom nameOf b.words (b.size + 1) [] 0

end ConsoleScript.Bytecode
