import ConsoleScript.CommandLine.Program
import ConsoleScript.Persist.ArchiveFile
import Std.Time.DateTime.Timestamp

/-!
The program on a machine. A task runs on a disk that holds the files it was found to need: the
settings, the files they and the command line name, and the scripts that earlier attempts at the
task looked for. When nothing is missing any more, what the task printed is printed, and the files
it left changed are written.
-/

namespace ConsoleScript.CommandLine

/-- Brings what the machine has at a path onto the disk. -/
def fetch (d : Disk) (path : Bytes) : IO Disk := do
  let path := Path.absolute d.cwdPath path
  let folder (path : Bytes) : Disk := (d.makeFolders path).toOption.getD d
  match String.fromUTF8? ⟨path.toArray⟩ with
  | none => return d
  | some name =>
      match ← (IO.FS.readBinFile name).toBaseIO with
      | .ok content =>
          let node := ArchiveFile.node content.data.toList
          return ((folder (Path.parent path)).replace path node).toOption.getD d
      | .error _ =>
          let isFolder ← (do (← IO.FS.realPath name).isDir : IO Bool).toBaseIO
          return if isFolder.toOption.getD false then folder path else d

/-- Writes the files and folders that are not as they were. -/
def store (before after : Disk) : IO Unit := do
  for (place, node) in after.nodes.reverse do
    let old := before.node? place
    let path := Path.slash :: Bytes.joinWith [Path.slash] place
    match String.fromUTF8? ⟨path.toArray⟩, ArchiveFile.content? node with
    | none, _ => pure ()
    | some name, none => if old.isNone then IO.FS.createDirAll name
    | some name, some content =>
        if old.bind ArchiveFile.content? != some content then
          IO.FS.writeBinFile name ⟨content.toArray⟩

/-- Prints to both streams. -/
def emit (out : Output) : IO Unit := do
  let stdout ← IO.getStdout
  stdout.write ⟨out.stdout.toArray⟩
  stdout.flush
  (← IO.getStderr).write ⟨out.stderr.toArray⟩

/-- Performs a task. If scripts that it missed are on the machine, they are brought onto the disk
and the task is begun anew. -/
partial def performHere {α : Type} (m : Job α) (s : Interp) :
    IO (Except Stop (Except Failure α) × Interp) := do
  let (r, after) := m.perform { s with missed := [] }
  let disk ← after.missed.foldlM fetch s.disk
  if s.disk.nodes.length < disk.nodes.length then performHere m { s with disk }
  else
    store s.disk after.disk
    match r with
    | .error e => return (.error e, after)
    | .ok (r, out) =>
        emit out
        return (.ok r, after)

/-- A folder and those above it. -/
def foldersUp : (fuel : Nat) → Bytes → List Bytes
  | 0, dir => [dir]
  | fuel + 1, dir =>
      if Path.parent dir == dir then [dir] else dir :: foldersUp fuel (Path.parent dir)

/-- The disk at the start. -/
def startDisk (o : Options) (paths : List Bytes) : IO Disk := do
  let cwd := utf8 (← IO.currentDir).toString
  let d : Disk := { cwd := Path.components cwd }
  let d := (d.makeFolders cwd).toOption.getD d
  let dir := Path.absolute cwd o.configDir
  let d ← (foldersUp dir.length dir).foldlM (fun d up => fetch d (Path.join up Settings.fileName)) d
  let named := match Settings.find d dir with
    | .ok (some c) => c.configPath :: c.databasePath :: Path.parent c.databasePath :: c.execPaths
    | _ => []
  ((named ++ paths ++ [Path.parent o.compileTo]).filter (!·.isEmpty)).foldlM fetch d

/-- Reads a stream to its end. -/
partial def readAll (input : IO.FS.Stream) (before : ByteArray) : IO ByteArray := do
  let part ← input.read 65536
  if part.isEmpty then return before else readAll input (before ++ part)

/-- The console on a terminal. What scripts print comes before the value of a line. -/
partial def converse (pending : Bytes) (s : Interp) : IO Interp := do
  let stdout ← IO.getStdout
  stdout.putStr (if pending.isEmpty then ">> " else ".. ")
  stdout.flush
  let line ← (← IO.getStdin).getLine
  if line.isEmpty then return s
  let line := (utf8 line).takeWhile (!Syntax.isLineBreak ·)
  let task : Job (Option Bytes) := do
    let next ← replLine pending line
    let out ← getThe Output
    set ({} : Output)
    Job.flush
    modifyThe Output fun o => ⟨o.stdout ++ out.stdout, o.stderr ++ out.stderr⟩
    return next
  match ← performHere task s with
  | (.ok (.ok (some pending)), s) => converse pending s
  | (_, s) => return s

/-- Performs a task and goes on with its value; if it fails, says why and ends. -/
def orExplain {α : Type} (m : Job α) (s : Interp) (next : α → Interp → IO UInt32) : IO UInt32 := do
  match ← performHere (flushing m) s with
  | (.ok (.ok a), s) => next a s
  | (.ok (.error f), _) =>
      emit { stderr := utf8 "Error: " ++ f.message ++ [0x0A] }
      return 1
  | (.error _, _) => return 1

/-- Takes further input, from the terminal or as one text. -/
def takeInput (s : Interp) (next : Interp → IO UInt32) : IO UInt32 := do
  let stdin ← IO.getStdin
  if ← stdin.isTty then
    IO.println banner
    let s ← converse [] s
    IO.println ""
    next s
  else
    let text ← readAll stdin .empty
    let task : Job Unit := do
      let _ ← Job.orFail .fault (← Job.engine (Engine.execute text.data.toList))
    orExplain task s fun _ => next

/-- Runs the program. -/
def runHere (o : Options) (paths : List Bytes) : IO UInt32 := do
  let s := { Interp.new with disk := ← startDisk o paths }
  orExplain (start o paths) s fun
    | .done, _ => return 0
    | .input c reads, s => do
        let save (s : Interp) : IO UInt32 := do
          let now := (← Std.Time.Timestamp.now).toSecondsSinceUnixEpoch.val.toNat
          orExplain (finish o c now) s fun _ _ => return 0
        if reads then takeInput s save else save s

end ConsoleScript.CommandLine

open ConsoleScript CommandLine in
def main (args : List String) : IO UInt32 := do
  match Options.parse {} (args.map utf8) with
  | .ok (o, paths) => runHere o paths
  | .error e =>
      let asksHelp := e matches .unknown [0x68] || e == .unknown (utf8 "help")
      unless asksHelp do emit { stderr := e.message ++ [0x0A] }
      IO.eprint usage
      return if asksHelp then 0 else 2
