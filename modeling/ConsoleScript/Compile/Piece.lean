import ConsoleScript.Bytecode.Block

/-!
Compiled code before it is laid out in words: a list of pieces, each an instruction, a block
literal, code that runs by itself, or one of the shapes that control words take. Laying out a piece
needs to know where it begins only for the positions that block literals carry; every jump is over
whole pieces.
-/

namespace ConsoleScript.Compile

open Bytecode

/-- A piece of code. -/
inductive Piece where
  | instr (i : Instr)
  /-- Pushes its body as a code value. -/
  | block (body : List Piece)
  /-- Runs its body by itself and pushes what it gives, converted to the type of a tag. -/
  | spill (body : List Piece) (ret : RetTag)
  /-- Pushes `n` names, runs the code behind them and shadows the names. -/
  | shadow (names surplus : List Piece) (n : Nat)
  /-- Pops a condition and runs the body if it is true. -/
  | whenTrue (body : List Piece)
  /-- Pops a condition, makes null the result and runs the body if the condition is false. -/
  | whenFalse (body : List Piece)
  /-- Pops a condition and runs one of two bodies. -/
  | choice (yes no : List Piece)
  /-- Pops a value into the result and, unless that settles it, runs the body, pushes what it
  gives and goes on with the next link. The last link of a chain is a single jump. -/
  | link (op : Op) (body : List Piece) (next : Piece)
deriving Inhabited

/-- Code as a list of pieces. -/
abbrev Code := List Piece

mutual

/-- The words of a piece that begins at position `at'`. -/
def Piece.words (at' : Nat) : Piece → List UInt32
  | .instr i => i.encode
  | .block body =>
      let inner := Code.words (at' + 2) body
      Word.make .block .null (UInt32.ofNat (inner.length + 2)) ::
        Word.make .offset .null (UInt32.ofNat (at' + 2)) :: inner ++ [Word.make .exit .null 0]
  | .spill body ret =>
      Word.make .enter .null 0 :: Code.words (at' + 1) body ++ [Word.make .exit ret 0]
  | .shadow names surplus n =>
      let first := Code.words at' names
      first ++ Code.words (at' + first.length) surplus ++ [Word.make .local .null (UInt32.ofNat n)]
  | .whenTrue body =>
      let inner := Code.words (at' + 2) body
      Word.make .jumpFalse .null (UInt32.ofNat (inner.length + 2)) ::
        Word.make .enterResult .null 0 :: inner ++ [Word.make .exit .null 0]
  | .whenFalse body =>
      let inner := Code.words (at' + 3) body
      Word.make .null .null 0 :: Word.make .jumpTrue .null (UInt32.ofNat (inner.length + 2)) ::
        Word.make .enterResult .null 0 :: inner ++ [Word.make .exit .null 0]
  | .choice yes no =>
      let first := Code.words (at' + 2) yes
      let second := Code.words (at' + first.length + 5) no
      Word.make .jumpFalse .null (UInt32.ofNat (first.length + 3)) ::
        Word.make .enterResult .null 0 :: first ++ Word.make .exit .null 0 ::
        Word.make .jump .null (UInt32.ofNat (second.length + 2)) ::
        Word.make .enterResult .null 0 :: second ++ [Word.make .exit .null 0]
  | .link op body next =>
      let inner := Code.words (at' + 2) body
      let rest := next.words (at' + inner.length + 3)
      Word.make op .null (UInt32.ofNat (inner.length + 2 + rest.length)) ::
        Word.make .enter .null 0 :: inner ++ Word.make .exit .null 0 :: rest

/-- The words of code that begins at position `at'`. -/
def Code.words (at' : Nat) : List Piece → List UInt32
  | [] => []
  | p :: rest =>
      let first := p.words at'
      first ++ Code.words (at' + first.length) rest

end

/-- A block literal, or the instruction for empty code if it has no body. -/
def literal (body : Code) : Code :=
  if body.isEmpty then [.instr (.plain .empty)] else [.block body]

def literalBody? : Code → Option Code
  | [.block body] => some body
  | _ => none

/-- Code that pushes empty code and nothing else. -/
def isEmptyLiteral : Code → Bool
  | [.instr i] => i.op == .empty
  | _ => false

/-- The links of a chain over the bodies. -/
def chain (op : Op) (bodies : List Code) : Piece :=
  bodies.foldr (fun body next => .link op body next) (.instr (.plain op))

/-- A whole stream: the start marker, the code and an exit. -/
def toBlock (name : Bytes) (code : Code) : Block where
  name := name
  words := (Word.make .start .null 0 :: Code.words 1 code ++ [Word.make .exit .null 0]).toArray

end ConsoleScript.Compile
