import ConsoleScript.Engine.Step

/-!
Running code. The depth to which code may nest bounds the recursion: below it code is not run but
passed over, up to the exit where running it would have ended. Within a run the position only grows,
so a run has at most as many steps as its block has words.
-/

namespace ConsoleScript.Engine

open Bytecode

/-- Ends the shadowing of aliases, the last one first. -/
def endLocals (locals : List Nat) : Engine Unit := locals.forM popAlias

/-- Steps up to the exit, at most `left` of them. However the run ends, the aliases that it shadows
are restored. -/
def runFrom (k : Runner) (b : Block) : (left : Nat) → Activation → Engine (Value × Nat)
  | 0, a => do
      endLocals a.locals
      failAt b.name (a.pc - 1) .ranOffEnd
  | left + 1, a => do
      match ← attempt (step k b a) with
      | .ok (.go a) => runFrom k b left a
      | .ok (.done v pc) =>
          endLocals a.locals
          return (v, pc)
      | .error e =>
          endLocals a.locals
          throw e

/-- Passes over instructions up to the exit at depth zero: over block literals, along jumps, and
counting the code that is entered. -/
def skipFrom (b : Block) (start : Nat) : (left depth pc : Nat) → Engine (Value × Nat)
  | 0, _, _ => failAt b.name start .noExit
  | left + 1, depth, pc => do
      if b.size ≤ pc then failAt b.name start .noExit
      else match decode b.words pc with
        | .error e => failAt b.name pc (.decode e)
        | .ok i =>
            let next := pc + i.size
            if i.op = .block || i.op.isJump then skipFrom b start left depth (next + i.arg.toNat)
            else if i.op = .enter || i.op = .enterResult then skipFrom b start left (depth + 1) next
            else if i.op = .exit then
              match depth with
              | 0 => return (Value.null.force i.ret, next)
              | depth + 1 => skipFrom b start left depth next
            else skipFrom b start left depth next

/-- Passes over code; its value is null, converted to the type that its exit asks for. -/
def skip : Runner := fun b pc => skipFrom b pc (b.size + 1) 0 pc

/-- Runs code that may nest to a depth. -/
def run : (room : Nat) → Runner
  | 0, b, pc => do
      debug (utf8 "exceeded recursion limit")
      skip b pc
  | room + 1, b, pc => deeper (runFrom (run room) b (b.size + 1) { pc })

end ConsoleScript.Engine
