import ConsoleScript.Engine.Variables

/-!
Loops of the command library. A counted loop binds its variable, which is an alias or an argument
slot, for as long as it runs: the first value shadows the alias and the following ones replace it.
A loop on a condition has no such bound, so it may take as many rounds as the interpreter allows.
-/

namespace ConsoleScript.Library

open Engine

/-- Rounds of a loop whose variable is bound: from the second round on it is set anew. The answer
is the number of the round that ended the loop, if one did. -/
def rounds (i : Nat) (value : Nat → Value) (body : Nat → Engine Bool) :
    (left round : Nat) → Engine (Option Nat)
  | 0, _ => return none
  | left + 1, round => do
      if 0 < round then modifyIdent i (·.setValue (value round))
      if ← body round then return some round
      rounds i value body left (round + 1)

/-- Runs a body with a variable bound to `n` values in turn, until the body says that it is enough.
Without values the variable is not touched. -/
def iterate (i n : Nat) (value : Nat → Value) (body : Nat → Engine Bool) :
    Engine (Option Nat) := do
  if n == 0 then return none
  else
    pushArg i (value 0)
    modifyIdent i clearUnknown
    ensuring (rounds i value body n 0) (popArg i)

def loopVariable? (v : Value) : Engine (Option Nat) := do
  match v.ident? with
  | none => return none
  | some i => return if (← identAt i).role.isAlias then some i else none

/-- Runs code for its truth. -/
def holds (k : Runner) (v : Value) : Engine Bool := return (← runValue k v).toBool

/-- Repeats a body while a condition holds. -/
def repeatWhile (condition : Engine Bool) (body : Engine Unit) : (left : Nat) → Engine Unit
  | 0 => throw .exhausted
  | left + 1 => do
      if ← condition then
        body
        repeatWhile condition body left

/-- The argument with a number; a command that is called with fewer arguments than it declares
faults when it reads one that is not there. -/
def arg (args : List Value) (i : Nat) : Engine Value := match args[i]? with
  | some v => return v
  | none => fail .badAccess

/-- An argument that only some forms of a command have. -/
def argIf (there : Bool) (args : List Value) (i : Nat) : Engine (Option Value) := do
  if there then pure (some (← arg args i)) else pure none

/-- A loop that counts from an offset in steps. -/
def countedLoop (k : Runner) (form : LoopForm) (args : List Value) : Engine Unit := do
  let at1 := if form.offset then 2 else 1
  let at2 := if form.step then at1 + 1 else at1
  let named ← arg args 0
  let offset := (← argIf form.offset args 1).elim 0 Value.toInt
  let step := (← argIf form.step args at1).elim 1 Value.toInt
  let n := (← arg args at2).toInt
  let condition ← argIf form.condition args (at2 + 1)
  let body ← arg args (if form.condition then at2 + 2 else at2 + 1)
  match ← loopVariable? named with
  | none => return
  | some i =>
      let _ ← iterate i n.toInt.toNat (fun r => .int (offset + Int32.ofNat r * step)) fun _ => do
        match condition with
        | some c => if !(← holds k c) then return true
        | none => pure ()
        let _ ← runValue k body
        return false

/-- Runs a body for the elements of a list until it says that it is enough. -/
def listLoop (i : Nat) (list : Bytes) (body : Engine Bool) : Engine (Option Nat) := do
  let values := (Syntax.parseList list).toArray
  iterate i values.size (fun r => .ofBytes (values.getD r [])) fun _ => body

end ConsoleScript.Library
