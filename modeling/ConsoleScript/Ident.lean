import ConsoleScript.Fault
import ConsoleScript.Signature
import ConsoleScript.Value

/-!
Identifiers: variables, commands, aliases and the control words. An identifier has a name, flags
and a role. Any identifier can hold a value, saved values and a compiled body, though only aliases
use them in well-formed code.

Commands and watchers of the host are programs over a few requests to the interpreter, so that the
interpreter can be called back from inside them.
-/

namespace ConsoleScript

open Bytecode (Block)

/-- Argument slots: the identifiers with the first indices, `arg1`, `arg2`, and so on. -/
def maxArgs : Nat := 25

/-- The index of the alias that stands for every name that cannot be one. -/
def dummyIndex : Nat := 25

/-- The set of properties of an identifier. -/
structure Flags where
  /-- Is written to the config script. -/
  persist : Bool := false
  /-- Every write is an override. -/
  override : Bool := false
  /-- Is printed in hexadecimal. -/
  hex : Bool := false
  /-- Refuses writes. -/
  readOnly : Bool := false
  /-- Holds an overriding value. -/
  overridden : Bool := false
  /-- Was named but never defined. -/
  unknown : Bool := false
  /-- Is an argument slot. -/
  arg : Bool := false
deriving DecidableEq, Repr, Inhabited

namespace Flags

/-- The flags that an identifier can be registered with; the interpreter keeps the others. -/
def forRegistration (f : Flags) : Flags :=
  { f with overridden := false, unknown := false, arg := false }

end Flags

/-- What an interpreter reports to its console and its observers. -/
inductive Event where
  /-- A line printed by a script. -/
  | echo (line : Bytes)
  /-- A warning. -/
  | warn (text : Bytes)
  /-- A watched variable was written. -/
  | changed (name : Bytes) (value : Value)
  /-- A command of the host was called. -/
  | called (name : Bytes) (args : List Value)
  /-- The host ran code from inside a command or a watcher. -/
  | ran (outcome : Except Fault Value)

/-- What a command or watcher of the host does: it may report events, execute a text, run a value
and go on with the outcome, and ends with a result or a fault. -/
inductive HostProgram where
  | done (result : Value)
  | fail (message : Bytes)
  | emit (e : Event) (next : HostProgram)
  | execute (src : Bytes) (next : Except Fault Value → HostProgram)
  | runValue (v : Value) (next : Value → HostProgram)

/-- The words that the compiler turns into control flow. -/
inductive Control where
  | local
  | run
  | runOuter
  | branch
  | result
  | not
  | and
  | or
deriving DecidableEq, Repr

namespace Control

/-- The name of the kind. -/
def kindName : Control → String
  | .local => "local"
  | .run => "do"
  | .runOuter => "doargs"
  | .branch => "if"
  | .result => "result"
  | .not => "not"
  | .and => "and"
  | .or => "or"

/-- The word in scripts. -/
def word : Control → String
  | .local => "local"
  | .run => "do"
  | .runOuter => "doargs"
  | .branch => "if"
  | .result => "result"
  | .not => "!"
  | .and => "&&"
  | .or => "||"

/-- The parameters when it is called through a computed name. -/
def signature : Control → Signature
  | .local => []
  | .run | .runOuter => [.code]
  | .branch => [.any, .code, .code]
  | .result => [.anyOrNull]
  | .not => [.any]
  | .and | .or => [.condition, .again 1, .all]

/-- All control words in the order of their registration. -/
def all : List Control := [.local, .run, .runOuter, .branch, .result, .not, .and, .or]

end Control

/-- Operators that fold integers. -/
inductive IntOp where
  | add | mul | sub | xor | and | or | xorNot | andNot | orNot | shiftLeft | shiftRight | div | mod
deriving DecidableEq, Repr

/-- Operators that fold floats. -/
inductive FloatOp where
  | add | mul | sub | div | mod | pow
deriving DecidableEq, Repr

/-- Comparisons of neighbours. -/
inductive Relation where
  | eq | ne | lt | gt | le | ge
deriving DecidableEq, Repr

/-- Which parameters a loop takes besides its variable and count. -/
structure LoopForm where
  offset : Bool
  step : Bool
  condition : Bool
deriving DecidableEq, Repr

/-- How the label of a case is compared. -/
inductive CaseKind where
  | int | float | text
deriving DecidableEq, Repr

/-- The commands of the library. -/
inductive Builtin where
  | loop (form : LoopForm)
  | while
  | choose
  | cond
  | cases (kind : CaseKind)
  | push
  | nodebug
  | alias
  | getAlias
  | identExists
  | resetVar
  | intFold (op : IntOp)
  | complement
  | floatFold (op : FloatOp)
  | intExtreme (greatest : Bool)
  | floatExtreme (greatest : Bool)
  | intAbs
  | floatAbs
  | intCompare (r : Relation)
  | floatCompare (r : Relation)
  | textCompare (r : Relation)
  | concat (spaced : Bool)
  | format
  | textLength
  | substring
  | textFind
  | textReplace
  | small
  | capital
  | escape
  | unescape
  | toHex
  | listLength
  | listAt
  | sublist
  | listFind
  | loopList
  | echo
  | error
  | exec
deriving DecidableEq, Repr

/-- What a command does. -/
inductive Action where
  | builtin (b : Builtin)
  | host (f : List Value → HostProgram)

/-- Numbers of the interpreter that a variable can show. -/
inductive Cell where
  /-- The number of arguments of the running alias. -/
  | callArgs
  /-- How many calls a warning lists. -/
  | traceLimit
  /-- Whether new aliases persist. -/
  | persistence
deriving DecidableEq, Repr

/-- Where an integer variable keeps its number. -/
inductive IntStore where
  | own (i : Int32)
  | shared (c : Cell)
deriving DecidableEq, Repr

/-- What happens after a variable is written. -/
inductive Watch where
  | none
  /-- New aliases persist exactly if the number is not zero. -/
  | persistence
  | host (f : Value → HostProgram)

/-- What an identifier is. -/
inductive Role where
  | intVar (least greatest : Int32) (store : IntStore) (watch : Watch)
  | floatVar (least greatest : Single) (value : Single) (watch : Watch)
  | textVar (value : Bytes) (watch : Watch)
  | command (sig : Signature) (action : Action)
  | alias
  | control (c : Control)

namespace Role

def kindName : Role → String
  | .intVar .. => "var"
  | .floatVar .. => "fvar"
  | .textVar .. => "svar"
  | .command .. => "command"
  | .alias => "alias"
  | .control c => c.kindName

def isVar : Role → Bool
  | .intVar .. | .floatVar .. | .textVar .. => true
  | _ => false

def isAlias : Role → Bool
  | .alias => true
  | _ => false

/-- The parameters of what can be called as a command. -/
def signature : Role → Signature
  | .command sig _ => sig
  | .control c => c.signature
  | _ => []

def watch : Role → Watch
  | .intVar _ _ _ w | .floatVar _ _ _ w | .textVar _ w => w
  | _ => .none

end Role

/-- The kinds of identifiers by number. -/
def kindNames : List String :=
  ["var", "fvar", "svar", "command", "alias"] ++ Control.all.map Control.kindName

def kindNameOf (n : Nat) : Bytes :=
  match kindNames[n]? with
  | some s => utf8 s
  | none => utf8 "Kind(" ++ Bytes.ofNat n ++ utf8 ")"

/-- An identifier. -/
structure Ident where
  name : Bytes
  role : Role
  flags : Flags := {}
  /-- The value of an alias. -/
  value : Value := .null
  /-- The compiled value of an alias. -/
  body : Option Block := none
  /-- Values that are shadowed, innermost first. -/
  saved : List Value := []
  /-- The value of a variable before it was overridden. -/
  before : Value := .null

namespace Ident

/-- A new value, whose body is not compiled yet. -/
def setValue (v : Value) (id : Ident) : Ident := { id with value := v, body := none }

/-- Saves the value and installs another. -/
def pushValue (v : Value) (id : Ident) : Ident :=
  { id with saved := id.value :: id.saved, value := v, body := none }

/-- How many values are shadowed. -/
def depth (id : Ident) : Nat := id.saved.length

end Ident

end ConsoleScript
