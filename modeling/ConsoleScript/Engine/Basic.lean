import ConsoleScript.Compile.Argument
import ConsoleScript.Interp

/-!
Computations of an interpreter. A computation changes the interpreter and ends with a value, with a
fault, or because a loop ran for too long; changes made before a fault stay. `ensuring` adds a
clean-up that always runs, and `protect` turns a fault into an ordinary answer.

Code is run by a `Runner`, which every part that can be called back from running code takes as an
argument.
-/

namespace ConsoleScript

open Bytecode (Block)

/-- Why a computation did not end with a value. -/
inductive Stop where
  | fault (f : Fault)
  /-- A loop took more rounds than the interpreter allows. -/
  | exhausted
deriving DecidableEq, Repr

/-- A computation of an interpreter. -/
abbrev Engine := ExceptT Stop (StateM Interp)

/-- Runs the code of a block from a position up to the matching exit, and gives its result and the
position behind the exit. -/
abbrev Runner := Block → Nat → Engine (Value × Nat)

namespace Engine

/-- Ends with a fault that has no place. -/
def fail {α : Type} (c : Fault.Cause) : Engine α := throw (.fault { cause := c })

/-- Ends with a fault at a position. -/
def failAt {α : Type} (block : Bytes) (pc : Int) (c : Fault.Cause) : Engine α :=
  throw (.fault { cause := c, block, pc })

/-- How a computation ends. -/
def attempt {α : Type} (m : Engine α) : Engine (Except Stop α) := ExceptT.lift (ExceptT.run m)

/-- Runs a clean-up after a computation, however it ends. A fault of the clean-up replaces one of
the computation. -/
def ensuring {α : Type} (m : Engine α) (cleanup : Engine Unit) : Engine α := do
  match ← attempt m with
  | .ok a =>
      cleanup
      return a
  | .error e =>
      cleanup
      throw e

/-- Goes to another level for a computation, and comes back if it ends with a value. A fault leaves
that to the execution that it ends. -/
def atLevel {α : Type} (enter : Level → Level) (leave : Level → Level → Level) (m : Engine α) :
    Engine α := do
  let before := (← get).level
  modify (·.setLevel (enter before))
  let a ← m
  modify fun s => s.setLevel (leave before s.level)
  return a

/-- Goes to another level for a computation, and comes back however it ends. -/
def ensuringLevel {α : Type} (enter : Level → Level) (leave : Level → Level → Level)
    (m : Engine α) : Engine α := do
  let before := (← get).level
  modify (·.setLevel (enter before))
  ensuring m (modify fun s => s.setLevel (leave before s.level))

/-- Runs code one level deeper. -/
def deeper {α : Type} (m : Engine α) : Engine α := atLevel .inner .outer m

/-- Runs a computation of its own: a fault in it becomes the answer, and a value becomes the result of
the interpreter as well. Without a value, the level from before is restored here. -/
def protect (m : Engine Value) : Engine (Except Fault Value) := do
  let before := (← get).level
  match ← attempt m with
  | .ok v =>
      modify fun s => { s with result := v }
      return .ok v
  | .error e =>
      modify (·.setLevel before)
      match e with
      | .fault f => return .error f
      | .exhausted => throw .exhausted

def emit (e : Event) : Engine Unit := modify fun s => { s with events := e :: s.events }

def echo (line : Bytes) : Engine Unit := emit (.echo line)

def warn (text : Bytes) : Engine Unit := emit (.warn text)

/-- The names of the running calls, the innermost first. -/
def callChain (s : Interp) : List Bytes := s.scopes.map fun c => s.table.nameOf c.ident

/-- The lines that list calls: the innermost ones below a limit, and the outermost one, marked if
calls between them are left out. The first argument counts the calls before. -/
def chainLines (limit total : Nat) : Nat → List Bytes → List Bytes
  | _, [] => []
  | before, name :: rest =>
      let depth := before + 1
      let place := Bytes.ofNat (total - before) ++ utf8 ") " ++ name
      let line :=
        if depth < limit then [utf8 "  " ++ place]
        else if !rest.isEmpty then []
        else if depth == limit then [utf8 "  " ++ place]
        else [utf8 "  .." ++ place]
      line ++ chainLines limit total depth rest

/-- Reports a problem of a script with the running calls, unless warnings are silenced. -/
def debug (text : Bytes) : Engine Unit := do
  let s ← get
  if s.muted == 0 then
    warn text
    if 0 < s.traceLimit then
      let chain := callChain s
      (chainLines s.traceLimit.toInt.toNat chain.length 0 chain).forM warn

def identAt? (i : Nat) : Engine (Option Ident) := return (← get).table.get? i

/-- The identifier with an index, which is known to be there. -/
def identAt (i : Nat) : Engine Ident := do
  match (← get).table.get? i with
  | some id => return id
  | none => fail .badAccess

def modifyIdent (i : Nat) (f : Ident → Ident) : Engine Unit := modify (·.modifyIdent i f)

/-- Compiles a text under a label and reports what is wrong with it. -/
def compileText (src name : Bytes) : Engine Block := do
  let out := compile (← get).table src name
  modify (·.addCompiled src name out.table)
  out.warnings.forM debug
  return out.block

/-- The index of a name, which becomes an unknown alias if it is new. -/
def intern (name : Bytes) : Engine Nat := do
  let (i, isName, table) := (← get).table.intern name
  modify fun s => { s with table }
  unless isName do debug (utf8 "number " ++ name ++ utf8 " is not a valid identifier name")
  return i

/-- Compiles and runs a text. -/
def runText (k : Runner) (src name : Bytes) : Engine Value := do
  let block ← compileText src name
  return (← k block 1).1

/-- Runs code, compiles and runs a text, and gives any other value on its own. -/
def runValue (k : Runner) (v : Value) : Engine Value := do
  match v with
  | .code block pc => return (← k block pc).1
  | .text _ s => runText k s []
  | v => return v.settle

def executeText (k : Runner) (src : Bytes) : Engine (Except Fault Value) :=
  protect (runText k src [])

/-- Does what a command or watcher of the host asks for. -/
def runHost (k : Runner) : HostProgram → Engine Value
  | .done v => return v
  | .fail message => fail (.host message)
  | .emit e next => do
      emit e
      runHost k next
  | .execute src next => do
      let outcome ← executeText k src
      runHost k (next outcome)
  | .runValue v next => do
      let result ← runValue k v
      runHost k (next result)

end Engine

end ConsoleScript
