import ConsoleScript.Disk
import ConsoleScript.Table

/-!
The state of an interpreter: the identifiers, the scopes of the running aliases, how deep code is
nested, the flags that writes leave, the last result and what was reported.

Argument slots are shared by all calls. A scope says which of them its call has bound, as a set of
bits, and the values that it covers lie in the slots' saved values. Below all calls is the outermost
scope, in which every slot counts as bound.
-/

namespace ConsoleScript

/-- A set of argument slots by index. -/
abbrev SlotSet := UInt32

namespace SlotSet

/-- The set of one slot; an index that has no bit gives the empty set. -/
def single (i : Nat) : SlotSet := if i < 32 then (1 : UInt32) <<< UInt32.ofNat i else 0

def below (n : Nat) : SlotSet := single n - 1

def has (s : SlotSet) (i : Nat) : Bool := s &&& single i != 0

/-- Every argument slot. -/
def all : SlotSet := below maxArgs

/-- The mark of a scope that shows the slots of a caller. -/
def outerMark : SlotSet := single maxArgs

/-- The members in order. -/
def toList (s : SlotSet) : List Nat := (List.range maxArgs).filter (has s)

end SlotSet

/-- The bindings of one call. -/
structure Scope where
  /-- The index of the called alias. -/
  ident : Nat
  used : SlotSet
deriving DecidableEq, Repr

/-- What takes the result of a command. -/
inductive Receiver where
  /-- The run that calls it, by how deep it is nested. -/
  | run (depth : Nat)
  /-- The lookup of its name. -/
  | lookup
  | host
deriving DecidableEq, Repr

/-- How many runs of code are inside one another, and what takes the result of a command that is
called: nothing outside all executions. -/
structure Level where
  depth : Nat := 0
  receiver : Option Receiver := none
deriving DecidableEq, Repr

namespace Level

/-- The level of a run inside. -/
def inner (l : Level) : Level := { depth := l.depth + 1, receiver := some (.run (l.depth + 1)) }

/-- The level outside a run, where results are taken as before it. -/
def outer (before now : Level) : Level := { depth := now.depth - 1, receiver := before.receiver }

def taking (r : Receiver) (l : Level) : Level := { l with receiver := some r }

/-- The level at which results are taken as before. -/
def untaken (before now : Level) : Level := { now with receiver := before.receiver }

end Level

/-- An interpreter. -/
structure Interp where
  table : Table := {}
  /-- What was reported, the last first. -/
  events : List Event := []
  /-- How deep code may nest. -/
  maxDepth : Int := 255
  trace : Bool := false
  /-- Where script files are looked for. -/
  dir : Bytes := []
  disk : Disk := {}
  /-- Paths of scripts that were not on the disk, the last first. -/
  missed : List Bytes := []
  /-- Flags that a write leaves on an alias. -/
  writeFlags : Flags := { persist := true }
  /-- The running calls, the innermost first. -/
  scopes : List Scope := []
  /-- The slots bound outside all calls. -/
  outermost : SlotSet := SlotSet.all
  level : Level := {}
  /-- The value of the last execution that ended well. -/
  result : Value := .null
  /-- How many commands that silence warnings are running. -/
  muted : Nat := 0
  /-- The number of arguments of the innermost call. -/
  callArgs : Int32 := 0
  /-- How many calls a warning lists. -/
  traceLimit : Int32 := 4
  /-- Whether new aliases persist. -/
  persistence : Int32 := 1
  /-- How many rounds a loop without a count may take. The language has no such bound. An execution that
  exceeds it stops as exhausted, and what is proved of it is about the rounds up to there. -/
  patience : Nat := 1000000000000
  /-- What was compiled: texts under labels, with the identifiers there were. Nothing that runs
  reads it; it is there to say what happened in an execution. -/
  compiled : Table → Bytes → Bytes → Prop := fun _ _ _ => False
  /-- How often code was run with the arguments of a caller; nothing that runs reads it either. -/
  outerRuns : Nat := 0
  /-- How often an alias was written, and which index each of these writes was to, with the flags that
  it left; nothing that runs reads them either. -/
  writes : Nat := 0
  written : Nat → Nat → Flags → Prop := fun _ _ _ => False
  /-- Since the number that says whether new aliases persist was written, a call has ended with
  another answer among the write flags than it had begun with; nothing that runs reads it either. -/
  lapsed : Bool := false

namespace Interp

/-- The slots bound in the innermost scope. -/
def used (s : Interp) : SlotSet := match s.scopes with
  | [] => s.outermost
  | c :: _ => c.used

/-- Changes the slots bound in the innermost scope. -/
def setUsed (u : SlotSet) (s : Interp) : Interp := match s.scopes with
  | [] => { s with outermost := u }
  | c :: rest => { s with scopes := { c with used := u } :: rest }

/-- Whether the innermost scope has bound a slot. -/
def isBound (s : Interp) (i : Nat) : Bool := s.used.has i

/-- A number of the interpreter itself. -/
def cell (s : Interp) : Cell → Int32
  | .callArgs => s.callArgs
  | .traceLimit => s.traceLimit
  | .persistence => s.persistence

def setCell (c : Cell) (v : Int32) (s : Interp) : Interp := match c with
  | .callArgs => { s with callArgs := v }
  | .traceLimit => { s with traceLimit := v }
  | .persistence => { s with persistence := v }

/-- The number that an integer variable shows. -/
def intOf (s : Interp) : IntStore → Int32
  | .own i => i
  | .shared c => s.cell c

def modifyIdent (i : Nat) (f : Ident → Ident) (s : Interp) : Interp :=
  { s with table := s.table.modify i f }

def setLevel (l : Level) (s : Interp) : Interp := { s with level := l }

@[simp]
theorem level_setLevel (l : Level) (s : Interp) : (s.setLevel l).level = l := rfl

/-- Notes that a text was compiled, and takes over the identifiers that were named in it. -/
def addCompiled (src name : Bytes) (table : Table) (s : Interp) : Interp :=
  { s with
    table
    compiled := fun t x n => s.compiled t x n ∨ (t = s.table ∧ x = src ∧ n = name) }

/-- Notes that code is run with the arguments of a caller. -/
def addOuterRun (s : Interp) : Interp := { s with outerRuns := s.outerRuns + 1 }

/-- Lets writes override, or not. -/
def setMode (on : Bool) (s : Interp) : Interp :=
  { s with writeFlags := { s.writeFlags with overridden := on } }

/-- Notes that an alias is written, and which flags that leaves. -/
def addWrite (i : Nat) (flags : Flags) (s : Interp) : Interp :=
  { s with
    writes := s.writes + 1
    written := fun n j f => s.written n j f ∨ (n = s.writes ∧ j = i ∧ f = flags) }

/-- Lets writes leave the flags that they left before a call. -/
def restoreFlags (flags : Flags) (s : Interp) : Interp :=
  { s with
    writeFlags := flags
    lapsed := s.lapsed || s.writeFlags.persist != flags.persist }

/-- Lets new aliases persist exactly if the number that says so is not zero. -/
def stampPersistence (s : Interp) : Interp :=
  { s with
    writeFlags := { s.writeFlags with persist := s.persistence != 0 }
    lapsed := false }

/-- The value of an identifier as a host reads it; commands have none. -/
def valueOf (s : Interp) (id : Ident) : Value := match id.role with
  | .intVar _ _ store _ => .int (s.intOf store)
  | .floatVar _ _ x _ => .float x
  | .textVar t _ => .ofBytes t
  | .alias => id.value.settle
  | _ => .null

/-- The greatest number of a variable that holds a colour. -/
def greatestColour : Int32 := 0xFFFFFF

/-- An integer variable in print: hexadecimal if it is flagged so and not negative. -/
def intText (hex : Bool) (greatest v : Int32) : Bytes :=
  if hex && 0 ≤ v then
    let digits := Bytes.ofNatHex v.toInt.toNat
    utf8 "0x" ++ if greatest == greatestColour then Bytes.padLeft 0x30 6 digits else digits
  else Printing.int v

/-- The text of the value of an identifier. -/
def textOf (s : Interp) (id : Ident) : Bytes := match id.role with
  | .intVar _ greatest store _ => intText id.flags.hex greatest (s.intOf store)
  | .floatVar _ _ x _ => Printing.float x
  | .textVar t _ => t
  | .alias => id.value.toBytes
  | _ => []

def colourByte (v : Int32) (shift : Int32) : Bytes := Printing.int ((v >>> shift) &&& 0xFF)

/-- The line that naming a variable prints; nothing for other identifiers. -/
def printed? (s : Interp) (id : Ident) : Option Bytes := match id.role with
  | .intVar _ greatest store _ =>
      let v := s.intOf store
      let text := id.name ++ utf8 " = " ++ s.textOf id
      if id.flags.hex && 0 ≤ v && greatest == greatestColour then
        some (text ++ utf8 " (" ++ colourByte v 16 ++ utf8 ", " ++ colourByte v 8 ++ utf8 ", " ++
          colourByte v 0 ++ utf8 ")")
      else some text
  | .floatVar .. => some (id.name ++ utf8 " = " ++ s.textOf id)
  | .textVar .. => some (id.name ++ utf8 " = \"" ++ s.textOf id ++ utf8 "\"")
  | _ => none

end Interp

end ConsoleScript
