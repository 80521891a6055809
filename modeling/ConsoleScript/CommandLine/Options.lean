import ConsoleScript.Number.Numeral
import ConsoleScript.Text.Quoted

/-!
Options on the command line. An option begins with one or two dashes and has its value behind an
equals sign or, unless it is a switch, as the next argument. Options end at the first argument that
is none, or behind two dashes.
-/

namespace ConsoleScript.CommandLine

/-- What the command line asks for. -/
structure Options where
  /-- A text to execute. -/
  expr : Bytes := []
  /-- Whether the console follows. -/
  interactive : Bool := false
  /-- Whether files are listed and not run. -/
  listing : Bool := false
  /-- The file to compile into. -/
  compileTo : Bytes := []
  /-- Where the settings are looked for. -/
  configDir : Bytes := []
  /-- How much is logged, if it is not what the settings say. -/
  verbosity : Int := -1
  /-- Whether nothing is saved at the end. -/
  noPersist : Bool := false
  /-- The snapshot to begin with. -/
  restore : Bytes := []
  /-- Whether snapshots are listed. -/
  snapshots : Bool := false

/-- Why arguments are refused. -/
inductive OptionError where
  | unknown (name : Bytes)
  | badSyntax (arg : Bytes)
  | noValue (name : Bytes)
  | badValue (name value : Bytes)
deriving DecidableEq, Repr

def OptionError.message : OptionError → Bytes
  | .unknown name => utf8 "flag provided but not defined: -" ++ name
  | .badSyntax arg => utf8 "bad flag syntax: " ++ arg
  | .noValue name => utf8 "flag needs an argument: -" ++ name
  | .badValue name value =>
      utf8 "invalid value " ++ Quoted.text value ++ utf8 " for flag -" ++ name ++
        utf8 ": parse error"

/-- How the program is called. -/
def usage : String :=
  "Usage: cubescript [options] [files...]\n\n" ++
  "Runs CubeScript files (.cfg source or .csb compiled blocks).\n\nOptions:\n" ++
  "  -compile string\n    \tCompile the single input file to a .csb cache file\n" ++
  "  -config string\n" ++
  "    \tDirectory to search for cubescript.toml (default: current directory)\n" ++
  "  -disasm\n    \tPrint the bytecode of each file instead of running it\n" ++
  "  -e string\n    \tEvaluate an expression and print its result\n" ++
  "  -i\tStart the REPL after running files\n" ++
  "  -no-persist\n    \tDo not write persistent identifiers on exit\n" ++
  "  -restore string\n    \tRestore a snapshot by ID (or 'latest') before running\n" ++
  "  -snapshots\n    \tList saved snapshots and exit\n" ++
  "  -v int\n    \tLog verbosity (overrides [log] verbosity) (default -1)\n" ++
  "\nExamples:\n" ++
  "  cubescript                         # Start REPL\n" ++
  "  cubescript -e 'result (+ 1 2)'     # Evaluate an expression\n" ++
  "  cubescript game.cfg                # Run a script\n" ++
  "  cubescript -compile game.csb game.cfg\n" ++
  "  cubescript -disasm game.cfg\n"

namespace Options

/-- A truth value. -/
def bool? (s : Bytes) : Option Bool :=
  if ["1", "t", "T", "true", "TRUE", "True"].any (utf8 · == s) then some true
  else if ["0", "f", "F", "false", "FALSE", "False"].any (utf8 · == s) then some false
  else none

/-- A numeral in the base that its beginning names. The beginning counts as a digit where digits
are divided by underscores. -/
def natural? (s : Bytes) : Option Nat :=
  let (base, start, rest) := match s with
    | 0x30 :: c :: d :: rest =>
        if c == code 'x' || c == code 'X' then (16, true, d :: rest)
        else if c == code 'o' || c == code 'O' then (8, true, d :: rest)
        else if c == code 'b' || c == code 'B' then (2, true, d :: rest)
        else (8, true, c :: d :: rest)
    | [0x30, c] => (8, true, [c])
    | s => (10, false, s)
  (Numeral.digits? base start rest).map (Numeral.natOf base)

/-- A whole number of 64 bits. -/
def int? (s : Bytes) : Option Int := do
  let i : Int ← match s with
    | c :: t =>
        if c == code '-' then (natural? t).map fun n => -(n : Int)
        else natural? (if c == code '+' then t else c :: t)
    | [] => none
  if -9223372036854775808 ≤ i && i ≤ 9223372036854775807 then some i else none

/-- Sets a switch. -/
def setSwitch? (o : Options) (name : Bytes) : Option (Bool → Options) :=
  if name == utf8 "i" then some fun b => { o with interactive := b }
  else if name == utf8 "disasm" then some fun b => { o with listing := b }
  else if name == utf8 "no-persist" then some fun b => { o with noPersist := b }
  else if name == utf8 "snapshots" then some fun b => { o with snapshots := b }
  else none

/-- Sets an option that has a value. -/
def setValue? (o : Options) (name : Bytes) : Option (Bytes → Option Options) :=
  if name == utf8 "e" then some fun v => some { o with expr := v }
  else if name == utf8 "compile" then some fun v => some { o with compileTo := v }
  else if name == utf8 "config" then some fun v => some { o with configDir := v }
  else if name == utf8 "restore" then some fun v => some { o with restore := v }
  else if name == utf8 "v" then some fun v => (int? v).map fun n => { o with verbosity := n }
  else none

/-- An argument that is an option: its name without dashes, and its value if it has one. -/
def split (arg : Bytes) : Bytes × Option Bytes :=
  let name := arg.takeWhile (· != code '=')
  match arg.drop name.length with
  | [] => (name, none)
  | _ :: value => (name, some value)

/-- Takes the arguments; what is left are the files. -/
def parse (o : Options) : List Bytes → Except OptionError (Options × List Bytes)
  | [] => .ok (o, [])
  | arg :: rest =>
      let bare := arg.drop (if Bytes.startsWith arg (utf8 "--") then 2 else 1)
      if !Bytes.startsWith arg (utf8 "-") || arg.length == 1 then .ok (o, arg :: rest)
      else if arg == utf8 "--" then .ok (o, rest)
      else if bare.isEmpty || bare.head? == some (code '-') || bare.head? == some (code '=') then
        .error (.badSyntax arg)
      else
        let (name, value) := split bare
        match o.setSwitch? name, o.setValue? name, value, rest with
        | some set, _, none, rest => parse (set true) rest
        | some set, _, some v, rest => match bool? v with
          | some b => parse (set b) rest
          | none => .error (.badValue name v)
        | none, some set, some v, rest => match set v with
          | some o => parse o rest
          | none => .error (.badValue name v)
        | none, some set, none, v :: rest => match set v with
          | some o => parse o rest
          | none => .error (.badValue name v)
        | none, some _, none, [] => .error (.noValue name)
        | none, none, _, _ => .error (.unknown name)

end Options

end ConsoleScript.CommandLine
