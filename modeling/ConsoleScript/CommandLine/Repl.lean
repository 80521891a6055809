import ConsoleScript.CommandLine.Files

/-!
The console: lines are collected while brackets are open and then executed, and the value of each
text is printed. Lines that begin with a colon are commands of the console.
-/

namespace ConsoleScript.CommandLine

open Job

/-- Where a look for open brackets stands. -/
inductive BracketMode where
  | plain
  | quoted
  | comment
deriving DecidableEq, Repr

/-- The brackets opened less those closed, outside strings and comments. -/
def bracketDepth : BracketMode → Bytes → Int
  | _, [] => 0
  | .plain, c :: s =>
      if c == code '[' || c == code '(' then 1 + bracketDepth .plain s
      else if c == code ']' || c == code ')' then bracketDepth .plain s - 1
      else if c == Syntax.quote then bracketDepth .quoted s
      else if Syntax.startsComment (c :: s) then bracketDepth .comment s
      else bracketDepth .plain s
  | .quoted, c :: s =>
      if c == Syntax.quote || c == 0x0A then bracketDepth .plain s
      else if c == Syntax.caret then
        match s with
        | [] => 0
        | _ :: s => bracketDepth .quoted s
      else bracketDepth .quoted s
  | .comment, c :: s => bracketDepth (if c == 0x0A then .plain else .comment) s

/-- Whether a text ends inside brackets. -/
def isIncomplete (s : Bytes) : Bool := 0 < bracketDepth .plain s

/-- Executes a text and prints its value. -/
def evalAndPrint (src : Bytes) : Job Unit := do
  match ← engine (Engine.execute src) with
  | .error f => printError (utf8 "Error: " ++ f.message)
  | .ok v => unless v.isNull do printLine v.toBytes

/-- A line on an identifier: its kind, its name, and its value or its parameters. -/
def identLine (s : Interp) (id : Ident) : Bytes :=
  let about := if id.role.isVar || id.role.isAlias then utf8 "= " ++ s.textOf id
    else id.role.signature.toBytes
  Bytes.padRight 8 (utf8 id.role.kindName) ++ utf8 " " ++ id.name ++ utf8 " " ++ about

/-- The identifiers whose names begin in a certain way. -/
def listIdents (beginning : Bytes) : Job Unit := do
  let s ← engine get
  (s.table.idents.toList.filter fun id =>
    !id.flags.arg && Bytes.startsWith id.name beginning).forM fun id => printLine (identLine s id)

/-- What the console can do. -/
def helpText : String :=
  "REPL Commands:\n  :help, :h, :?      Show this help\n" ++
  "  :disasm <code>     Show the bytecode for <code>\n" ++
  "  :idents [prefix]   List identifiers\n  quit, exit         Exit REPL\n"

/-- A command of the console. -/
def replCommand (line : Bytes) : Job Unit := do
  let name := line.takeWhile (· != 0x20)
  let arg := Utf8.trim (line.drop (name.length + 1))
  if name == utf8 ":help" || name == utf8 ":h" || name == utf8 ":?" then print (utf8 helpText)
  else if name == utf8 ":disasm" then
    let block ← engine (Engine.compileText arg (utf8 "repl"))
    print (block.listing (← engine get).table.nameOf)
  else if name == utf8 ":idents" then listIdents arg
  else printLine (utf8 "Unknown command: " ++ name ++ utf8 " (try :help)")

/-- Takes a line; `pending` is the text collected before it. The answer is the text collected now,
or nothing if the console is to end. -/
def replLine (pending line : Bytes) : Job (Option Bytes) := do
  let command := Utf8.trim line
  if pending.isEmpty && (command == utf8 "quit" || command == utf8 "exit") then return none
  else if pending.isEmpty && Bytes.startsWith command (utf8 ":") then
    replCommand command
    return some []
  else
    let src := if pending.isEmpty then line else pending ++ [0x0A] ++ line
    if isIncomplete src then return some src
    else
      evalAndPrint src
      return some []

def banner : String := "CubeScript REPL (type 'quit' to exit, ':help' for commands)"

/-- Takes lines until they end or one says so. -/
def replLines (pending : Bytes) : List Bytes → Job Unit
  | [] => return
  | line :: rest => do
      match ← replLine pending line with
      | none => return
      | some pending => replLines pending rest

/-- The console on given lines. -/
def repl (lines : List Bytes) : Job Unit := do
  printLine (utf8 banner)
  replLines [] lines
  printLine []

end ConsoleScript.CommandLine
