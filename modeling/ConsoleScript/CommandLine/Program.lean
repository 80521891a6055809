import ConsoleScript.CommandLine.Options
import ConsoleScript.CommandLine.Repl
import ConsoleScript.Persist.Timestamp

/-!
The program as a whole: settings are found and take effect, the config script and the start scripts
are run, then the files and texts of the command line, and at the end the identifiers are saved.
-/

namespace ConsoleScript.CommandLine

open Job

/-- The settings in a folder or above it; without a folder, those of the current one. -/
def findSettings (dir : Bytes) : Job Settings := do
  let disk := (← engine get).disk
  let dir := if dir.isEmpty then disk.cwdPath else dir
  match ← orFail .settings (Settings.find disk dir) with
  | some c => return c
  | none => return Settings.default dir

/-- Runs the config script and the start scripts. What is not there, and what goes wrong, is passed
over. -/
def startup (c : Settings) : Engine Unit := do
  let config := if c.configPath.isEmpty then [] else [c.configPath]
  (config ++ c.execPaths).forM fun path => do
    if (← get).disk.isThere path then
      let _ ← Engine.execFile path

/-- Writes the config script to a file beside its place and then moves it there. -/
def writeConfigFile (path : Bytes) : Job Unit := do
  let s ← engine get
  let dir := Path.parent path
  let disk ← inContext (utf8 "creating " ++ dir)
    (orFail (fun (path, e) => Failure.file "mkdir" path e) (s.disk.makeFolders dir))
  engine (modify fun s => { s with disk })
  let beside := path ++ utf8 ".tmp"
  let disk ← inContext (utf8 "writing " ++ path)
    (orFail (Failure.file "open" beside) (disk.write beside s.configScript))
  engine (modify fun s => { s with disk })
  let disk ← orFail (Failure.rename beside path) (disk.rename beside path)
  engine (modify fun s => { s with disk })

/-- Saves the identifiers where the settings say. -/
def savePersistent (c : Settings) (now : Nat) : Job Unit := do
  unless c.configPath.isEmpty do writeConfigFile c.configPath
  unless c.databasePath.isEmpty do
    let _ ← orFail .archive (← engine (Archive.save c.databasePath (utf8 "exit") now))

def archivePath (c : Settings) : Job Bytes := do
  if c.databasePath.isEmpty then
    throw (.usage "no [persist] database configured in cubescript.toml")
  else return c.databasePath

/-- Brings a snapshot back, by its id or the newest one. -/
def restoreSnapshot (c : Settings) (id : Bytes) : Job Unit := do
  let path ← archivePath c
  let _ ← orFail .archive (← engine (Archive.list path))
  let id ← if id == utf8 "latest" then orFail .archive (← engine (Archive.latest path)) else pure id
  orFail .archive (← engine (Archive.load path id))

def snapshotLine (s : Snapshot) : Bytes :=
  s.id ++ utf8 "  " ++ Timestamp.text s.created ++ utf8 "  " ++
    Bytes.padLeft 0x20 3 (Bytes.ofNat s.entries.length) ++ utf8 "  " ++ s.label

def listSnapshots (c : Settings) : Job Unit := do
  let path ← archivePath c
  let snapshots ← orFail .archive (← engine (Archive.list path))
  snapshots.forM fun s => printLine (snapshotLine s)

/-- How a program goes on after its start. -/
inductive Continuation where
  | done
  /-- The files were run; further input is read if `reads`, and then the identifiers are saved. -/
  | input (c : Settings) (reads : Bool)

/-- Executes the text of the command line and prints its value. -/
def evalOption (src : Bytes) : Job Unit := do
  unless src.isEmpty do
    let v ← orFail .fault (← engine (Engine.execute src))
    flush
    unless v.isNull do printLine v.toBytes

/-- The start of the program, up to the point where it reads further input. -/
def start (o : Options) (paths : List Bytes) : Job Continuation := do
  let c ← findSettings o.configDir
  orFail .vars (← engine c.apply)
  if o.snapshots then
    listSnapshots c
    return .done
  else if !o.compileTo.isEmpty then
    match paths with
    | [path] => compileFile path o.compileTo
    | _ => throw (.usage "-compile takes exactly one input file")
    return .done
  else if o.listing then
    paths.forM listFile
    return .done
  else
    engine (startup c)
    unless o.restore.isEmpty do restoreSnapshot c o.restore
    paths.forM runFile
    evalOption o.expr
    return .input c (o.interactive || (paths.isEmpty && o.expr.isEmpty))

/-- The end of the program. -/
def finish (o : Options) (c : Settings) (now : Nat) : Job Unit :=
  unless o.noPersist do savePersistent c now

/-- The program with all of its further input in one text. -/
def run (o : Options) (paths : List Bytes) (input : Bytes) (now : Nat) : Job Unit := do
  match ← start o paths with
  | .done => return
  | .input c reads =>
      if reads then
        let _ ← orFail .fault (← engine (Engine.execute input))
      finish o c now

/-- A task whose scripts print to the console at once; what it leaves is printed at the end. -/
def flushing {α : Type} (m : Job α) : Job α := do
  let outcome ← (liftM (ExceptT.run m) : Job (Except Failure α))
  flush
  orFail id outcome

end ConsoleScript.CommandLine
