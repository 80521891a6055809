import ConsoleScript.Engine.Registry
import ConsoleScript.Engine.Run

/-!
What a host asks of an interpreter: to execute texts, blocks and files, to call identifiers, and to
read and write them. Executions are protected, so that a fault in one is an answer and the
interpreter can go on.
-/

namespace ConsoleScript

open Bytecode (Block)

/-- Why an identifier cannot be read, called or written. -/
inductive AccessError where
  | unknown (name : Bytes)
  | readOnly (name : Bytes)
  /-- The identifier is of a kind that has no value. -/
  | noValue (name kind : Bytes)
deriving DecidableEq, Repr

def AccessError.message : AccessError → Bytes
  | .unknown name => name ++ utf8 ": unknown identifier"
  | .readOnly name => name ++ utf8 ": identifier is read-only"
  | .noValue name kind =>
      name ++ utf8 " is a " ++ kind ++ utf8 ": identifier is read-only"

namespace Engine

/-- The runner outside all code. -/
def runner : Engine Runner := return run (← get).maxDepth.toNat

/-- Compiles and runs a text, and gives the value of its last statement. -/
def execute (src : Bytes) : Engine (Except Fault Value) := do executeText (← runner) src

/-- Runs a block from a position, which need not be one of the block. -/
def executeCode (b : Block) (pc : Int) : Engine (Except Fault Value) := do
  let k ← runner
  protect do
    if pc < 0 then
      if (← get).maxDepth ≤ 0 then
        debug (utf8 "exceeded recursion limit")
        failAt b.name pc (.decode (.truncated pc))
      else failAt b.name (pc - 1) .ranOffEnd
    else return (← k b pc.toNat).1

/-- Runs a block from its first instruction. -/
def executeBlock (b : Block) : Engine (Except Fault Value) := executeCode b 1

/-- Calls an alias or a command. -/
def executeIdent (i : Nat) (args : List Value) : Engine (Except Fault Value) := do
  let k ← runner
  let args := args.take maxArgs
  protect do
    let id ← identAt i
    if id.role.isAlias then
      if id.flags.unknown then
        debug (utf8 "unknown command: " ++ id.name)
        return .null
      else callAlias k i args .null
    else if isCallable id then
      ensuringLevel (.taking .host) .untaken (callShaped k i id false args)
    else return .null

/-- Calls a named alias or command. -/
def call (name : Bytes) (args : List Value) : Engine (Except AccessError (Except Fault Value)) := do
  match (← get).table.find? name with
  | none => return .error (.unknown name)
  | some i => return .ok (← executeIdent i args)

/-- Runs a script file; the answer is a fault, or else what became of reading the file. -/
def execFile (path : Bytes) : Engine (Except Fault (Except FileError Unit)) := do
  let k ← runner
  match ← Library.readScript path with
  | .error e =>
      modify fun s => { s with result := .null }
      return .ok (.error e)
  | .ok (src, path) => return (← protect (runText k src path)).map fun _ => .ok ()

/-- The value of an identifier. -/
def getValue (name : Bytes) : Engine (Except AccessError Value) := do
  let s ← get
  match s.table.lookup? name with
  | none => return .error (.unknown name)
  | some (_, id) => return .ok (s.valueOf id)

/-- Writes a variable or an alias. -/
def setValue (name : Bytes) (v : Value) : Engine (Except AccessError Unit) := do
  let k ← runner
  match (← get).table.lookup? name with
  | none =>
      assignNamed k name v
      return .ok ()
  | some (i, id) =>
      if id.flags.readOnly then return .error (.readOnly name)
      else if id.role.isVar || id.role.isAlias then
        assign k i v
        return .ok ()
      else return .error (.noValue name (utf8 id.role.kindName))

/-- Lets writes override, or not. -/
def setOverrideMode (on : Bool) : Engine Unit := modify (·.setMode on)

/-- Brings every overridden identifier back. -/
def clearOverrides : Engine Unit := do
  let k ← runner
  (List.range (← get).table.size).forM (clearOverride k)

/-- Gives the identifiers the indices that a stored block was compiled with, if they are free. -/
def bindIdents (names : List Bytes) : Engine Bool := do
  let (isBound, table) := (← get).table.bind names
  modify fun s => { s with table }
  return isBound

end Engine

end ConsoleScript
