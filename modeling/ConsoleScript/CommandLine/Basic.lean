import ConsoleScript.Bytecode.CacheFile
import ConsoleScript.Persist.Archive
import ConsoleScript.Settings.Basic

/-!
Tasks of the command line: computations of an interpreter that also print and may fail. What scripts
print is with the interpreter until it is flushed, so that it comes out in its place between what
the command line prints itself.
-/

namespace ConsoleScript

open Bytecode (CacheError)

/-- Why a task of the command line failed. -/
inductive Failure where
  /-- An action on a file. -/
  | file (action : String) (path : Bytes) (e : FileError)
  | rename (old new : Bytes) (e : FileError)
  | fault (f : Fault)
  | cache (e : CacheError)
  | archive (e : ArchiveError)
  | settings (e : SettingsError)
  /-- A value in the settings cannot be assigned. -/
  | vars (e : AccessError)
  | usage (text : String)
  /-- A failure and what it happened to. -/
  | within (context : Bytes) (f : Failure)

namespace Failure

/-- What fails when a file is read: a folder can be opened but not read. -/
def readAction (e : FileError) : String := if e = .isFolder then "read" else "open"

def reading (path : Bytes) (e : FileError) : Failure := .file (readAction e) path e

def fileText (action : String) (path : Bytes) (e : FileError) : Bytes :=
  utf8 action ++ utf8 " " ++ path ++ utf8 ": " ++ e.message

def message : Failure → Bytes
  | .file action path e => fileText action path e
  | .rename old new e =>
      utf8 "rename " ++ old ++ utf8 " " ++ new ++ utf8 ": " ++ e.message
  | .fault f => f.message
  | .cache e => e.message
  | .archive e => e.message
  | .settings (.unreadable path e) =>
      utf8 "cannot read " ++ path ++ utf8 ": " ++ fileText (readAction e) path e
  | .settings (.malformed path) => utf8 "parse error in " ++ path
  | .vars e => Settings.fileName ++ utf8 ": [vars] " ++ e.message
  | .usage text => utf8 text
  | .within context f => context ++ utf8 ": " ++ f.message

/-- The failure without what it happened to. -/
def cause : Failure → Failure
  | .within _ f => f.cause
  | f => f

end Failure

/-- What was printed. -/
structure Output where
  stdout : Bytes := []
  stderr : Bytes := []

/-- A task of the command line. -/
abbrev Job := ExceptT Failure (StateT Output Engine)

namespace Job

/-- Does what the interpreter can do. -/
def engine {α : Type} (m : Engine α) : Job α := liftM (liftM m : StateT Output Engine α)

/-- Goes on with the value of an answer. -/
def orFail {ε α : Type} (toFailure : ε → Failure) : Except ε α → Job α
  | .ok a => return a
  | .error e => throw (toFailure e)

/-- Says what a failure happened to. -/
def inContext {α : Type} (context : Bytes) (m : Job α) : Job α :=
  tryCatchThe Failure m fun f => throw (.within context f)

def print (text : Bytes) : Job Unit :=
  modifyThe Output fun o => { o with stdout := o.stdout ++ text }

def printLine (line : Bytes) : Job Unit := print (line ++ [0x0A])

def printError (line : Bytes) : Job Unit :=
  modifyThe Output fun o => { o with stderr := o.stderr ++ line ++ [0x0A] }

/-- Prints what scripts have printed since the last time, and their warnings. -/
def flush : Job Unit := do
  let events := (← engine get).events.reverse
  engine (modify fun s => { s with events := [] })
  events.forM fun
    | .echo line => printLine line
    | .warn text => printError text
    | _ => pure ()

/-- How a task ends, what it printed, and the interpreter it leaves. -/
def perform {α : Type} (m : Job α) (s : Interp) :
    Except Stop (Except Failure α × Output) × Interp :=
  (ExceptT.run (StateT.run (ExceptT.run m) {})).run s

end Job

end ConsoleScript
