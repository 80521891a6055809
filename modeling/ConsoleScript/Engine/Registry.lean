import ConsoleScript.Interp
import ConsoleScript.Library.Catalog

/-!
Registration of variables and commands, and the identifiers that every interpreter has from the
beginning: the argument slots, the dummy alias, the variables of the interpreter itself, the control
words and the library.
-/

namespace ConsoleScript

/-- Why something cannot be registered. -/
inductive RegisterError where
  | conflict (c : Conflict)
  | noFunction (name : Bytes)
  | badSignature (name sig : Bytes) (e : SignatureError)

def RegisterError.message : RegisterError → Bytes
  | .conflict c => c.message
  | .noFunction name =>
      utf8 "command " ++ Quoted.text name ++ utf8 " has no function: invalid command signature"
  | .badSignature name sig e =>
      utf8 "command " ++ Quoted.text name ++ utf8 ": " ++ e.message sig ++
        utf8 ": invalid command signature"

namespace Interp

/-- Registers an identifier and gives its index. -/
def register (id : Ident) (s : Interp) : Except RegisterError (Nat × Interp) :=
  match s.table.add id with
  | .ok (i, table) => .ok (i, { s with table })
  | .error c => .error (.conflict c)

/-- Registers an integer variable. An empty range makes it read-only. -/
def registerInt (name : Bytes) (least default greatest : Int32) (flags : Flags) (watch : Watch)
    (s : Interp) : Except RegisterError (Nat × Interp) :=
  let flags := flags.forRegistration
  s.register {
    name
    role := .intVar least greatest (.own default) watch
    flags := { flags with readOnly := flags.readOnly || greatest < least } }

/-- Registers a float variable. An empty range makes it read-only. -/
def registerFloat (name : Bytes) (least default greatest : Single) (flags : Flags) (watch : Watch)
    (s : Interp) : Except RegisterError (Nat × Interp) :=
  let flags := flags.forRegistration
  s.register {
    name
    role := .floatVar least greatest default watch
    flags := { flags with readOnly := flags.readOnly || greatest.lt least } }

def registerText (name default : Bytes) (flags : Flags) (watch : Watch) (s : Interp) :
    Except RegisterError (Nat × Interp) :=
  s.register { name, role := .textVar default watch, flags := flags.forRegistration }

/-- Registers a command of the host. -/
def registerCommand (name sig : Bytes) (f : Option (List Value → HostProgram)) (flags : Flags)
    (s : Interp) : Except RegisterError (Nat × Interp) :=
  match f with
  | none => .error (.noFunction name)
  | some f =>
      match Signature.parse sig with
      | .error e => .error (.badSignature name sig e)
      | .ok letters =>
          s.register { name, role := .command letters (.host f), flags := flags.forRegistration }

/-- The argument slots. -/
def argIdents : List Ident := (List.range maxArgs).map fun i =>
  { name := utf8 "arg" ++ Bytes.ofNat (i + 1), role := .alias, flags := { arg := true } }

/-- The alias that stands for every name that cannot be one. -/
def dummyIdent : Ident := { name := utf8 "//dummy", role := .alias, flags := { arg := true } }

/-- The variables that show numbers of the interpreter. The number of arguments has an empty range,
which makes it read-only. -/
def cellIdents : List Ident :=
  [{ name := utf8 "numargs"
     role := .intVar (Int32.ofNat maxArgs) 0 (.shared .callArgs) .none
     flags := { readOnly := true } },
    { name := utf8 "dbgalias", role := .intVar 0 1000 (.shared .traceLimit) .none },
    { name := utf8 "persistidents", role := .intVar 0 1 (.shared .persistence) .persistence }]

def controlIdents : List Ident :=
  Control.all.map fun c => { name := utf8 c.word, role := .control c }

/-- An interpreter with the argument slots, the control words and the library. -/
def new : Interp :=
  { table := ⟨(argIdents ++ [dummyIdent] ++ cellIdents ++ controlIdents ++
      Library.items.map Library.Item.toIdent).toArray⟩ }

end Interp

end ConsoleScript
