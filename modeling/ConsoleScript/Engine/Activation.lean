import ConsoleScript.Engine.Calls

/-!
One run of code: the position of the next instruction, the operand stack, the result so far and the
aliases that the run shadows. The operand stack holds the arguments of one call and a few
sub-expressions, so it is of fixed size.
-/

namespace ConsoleScript

open Bytecode (Block)

/-- The state of a run. -/
structure Activation where
  /-- The position of the next instruction. -/
  pc : Nat
  /-- The operands, the top first. -/
  stack : List Value := []
  result : Value := .null
  /-- The aliases that the run shadows, the last first. -/
  locals : List Nat := []

/-- Operands that the stack of a run has room for. -/
def maxOperands : Nat := maxArgs + Compile.maxResults

namespace Activation

open Engine

/-- Puts an operand on the stack. -/
def push (v : Value) (a : Activation) : Engine Activation :=
  if a.stack.length < maxOperands then return { a with stack := v :: a.stack }
  else fail .stackOverflow

/-- Takes the top off the stack. -/
def pop (a : Activation) : Engine (Value × Activation) := match a.stack with
  | [] => fail .stackUnderflow
  | v :: rest => return (v, { a with stack := rest })

/-- Takes the top off the stack and looks at the rest. -/
def top (a : Activation) : Engine (Value × List Value) := match a.stack with
  | [] => fail .stackUnderflow
  | v :: rest => return (v, rest)

/-- Puts another value in the place of the top. -/
def replaceTop (f : Value → Engine Value) (a : Activation) : Engine Activation := do
  let (v, rest) ← a.top
  return { a with stack := (← f v) :: rest }

/-- The last `n` operands in the order in which they were pushed. -/
def window (n : Nat) (a : Activation) : Engine (List Value) :=
  if n ≤ a.stack.length then return (a.stack.take n).reverse
  else fail (.stackShort n a.stack.length)

def drop (n : Nat) (a : Activation) : Activation := { a with stack := a.stack.drop n }

def setResult (v : Value) (a : Activation) : Activation := { a with result := v }

/-- Passes over words. -/
def jump (n : UInt32) (a : Activation) : Activation := { a with pc := a.pc + n.toNat }

/-- The identifier that an instruction of a block names. The instruction is the one before the
next. -/
def identIn (b : Block) (a : Activation) (i : Nat) : Engine Ident := do
  match ← identAt? i with
  | some id => return id
  | none => failAt b.name (a.pc - 1) (.identOutOfRange i)

end Activation

end ConsoleScript
