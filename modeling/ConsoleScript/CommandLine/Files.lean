import ConsoleScript.CommandLine.Basic
import ConsoleScript.Bytecode.Listing

/-!
Script files and compiled files on the command line. A compiled file holds a block, its source and
the names it was compiled with; if the names do not fit, the source is compiled again.
-/

namespace ConsoleScript.CommandLine

open Bytecode Job

/-- The end of the names of compiled files. -/
def compiledSuffix : Bytes := utf8 ".csb"

def readFile (path : Bytes) : Job Bytes := do
  orFail (Failure.reading path) ((← engine get).disk.read path)

/-- The block and the source of a compiled file. -/
def loadCompiled (path : Bytes) : Job (Block × Bytes) := do
  let content ← readFile path
  inContext path (orFail .cache (Block.ofFile content))

/-- Runs a script or a compiled file. -/
def runFile (path : Bytes) : Job Unit := do
  let place := Path.absolute (← engine get).disk.cwdPath path
  if !Bytes.endsWith place compiledSuffix then
    inContext path do
      let outcome ← orFail .fault (← engine (Engine.execFile place))
      orFail (Failure.reading place) outcome
  else
    let (block, source) ← loadCompiled place
    let fits ← engine (Engine.bindIdents block.idents)
    let block ← if fits then pure block else engine (Engine.compileText source block.name)
    let _ ← inContext path do orFail .fault (← engine (Engine.executeBlock block))

/-- Compiles a script into a file. -/
def compileFile (path out : Bytes) : Job Unit := do
  let source ← readFile path
  let block ← engine (Engine.compileText source (Path.base path))
  let s ← engine get
  let content := Block.toFile { block with idents := s.table.names } source
  let disk ← inContext (utf8 "writing " ++ out)
    (orFail (Failure.file "open" out) (s.disk.write out content))
  engine (modify fun s => { s with disk })

/-- Prints the instructions of a script or a compiled file. -/
def listFile (path : Bytes) : Job Unit := do
  let block ←
    if Bytes.endsWith path compiledSuffix then pure (← loadCompiled path).1
    else do
      let source ← readFile path
      engine (Engine.compileText source (Path.base path))
  flush
  print (block.listing (← engine get).table.nameOf)

end ConsoleScript.CommandLine
