import ConsoleScript.Engine.Bindings

/-!
Shaping arguments to a signature at run time, for calls through computed names. The letters are
taken one after the other, each with the next argument; an argument that is given is converted to
what its letter asks for, and one that is missing is made up. A repetition goes back to earlier
letters while there are arguments, and letters of an unfinished repetition leave null.
-/

namespace ConsoleScript.Engine

open Bytecode

/-- Code that gives null, converted to the type of a tag. -/
def emptyBlock (ret : RetTag) : Block :=
  { (Block.start.emit (Word.make .exit ret 0)) with name := utf8 "empty" }

def emptyCode (ret : RetTag) : Value := .code (emptyBlock ret) 1

def codeOf (src : Bytes) : Engine Value := return .code (← compileText src []) 1

/-- The index of a name. Values that are no names have the index of the dummy alias. -/
def indexOf (v : Value) : Engine Nat := match v.text? with
  | some name => intern name
  | none => return dummyIndex

/-- A name as a reference; an argument slot is bound. -/
def identOf (v : Value) : Engine Value := do
  let i ← indexOf v
  if i < maxArgs && (← identAt i).role.isAlias then bindArg i
  return .ident i

/-- What stands in for a missing argument, given the argument before it. -/
def missingArg (previous : Option Value) : Letter → Value
  | .int => .int 0
  | .intOrLeast => .int Int32.minValue
  | .float => .float Single.zero
  | .floatOrPrevious => .float (previous.elim Single.zero Value.toSingle)
  | .text => .text .view []
  | .ownText => .ofBytes []
  | .code => emptyCode .null
  | .ident => .ident dummyIndex
  | _ => .null

/-- Converts an argument to what a letter asks for. -/
def convertArg (v : Value) : Letter → Engine Value
  | .int | .intOrLeast => return .int v.toInt
  | .float | .floatOrPrevious => return .float v.toSingle
  | .text | .ownText => return .ofBytes v.toBytes
  | .condition => match v.text? with
    | some [] => return .null
    | some s => codeOf s
    | none => return v
  | .code => if v.isCode then return v else codeOf v.toBytes
  | .ident => match v.ident? with
    | some _ => return v
    | none => identOf v
  | _ => return v

/-- How far the arguments of a call are shaped. -/
structure Shaping where
  /-- The arguments so far. -/
  shaped : List Value := []
  /-- The arguments that are left. -/
  rest : List Value
  /-- How many of the shaped ones were not given. -/
  madeUp : Nat := 0
  /-- Whether letters are being repeated. -/
  again : Bool := false

namespace Shaping

/-- Adds an argument in the place of the next one that was given, if there is one. -/
def add (v : Value) (st : Shaping) : Shaping :=
  { st with shaped := st.shaped ++ [v], rest := st.rest.tail }

/-- Adds an argument that counts as not given. -/
def addMadeUp (v : Value) (st : Shaping) : Shaping :=
  { st.add v with madeUp := st.madeUp + 1 }

def all (st : Shaping) : List Value := st.shaped ++ st.rest

/-- The argument of a letter that takes a value. -/
def addGiven (l : Letter) (st : Shaping) : Engine Shaping := do
  match st.rest with
  | v :: _ => return st.add (← convertArg v l)
  | [] =>
      if st.again then return st.add .null
      else return st.addMadeUp (missingArg st.shaped.getLast? l)

end Shaping

/-- Takes the letters from a position on. The fuel bounds the number of letters taken. A command
that is looked up and not called sees -1 as the number of its arguments. -/
def shapeFrom (sig : Array Letter) (self : Nat) (isLookup : Bool) :
    (fuel at' : Nat) → Shaping → Engine (List Value)
  | 0, _, st => return st.shaped
  | fuel + 1, at', st => do
      match sig[at']? with
      | none => return st.shaped
      | some l =>
          match l with
          | .self => shapeFrom sig self isLookup fuel (at' + 1) (st.add (.ident self))
          | .count =>
              let n := if isLookup then -1 else Int32.ofNat (st.shaped.length - st.madeUp)
              shapeFrom sig self isLookup fuel (at' + 1) (st.add (.int n))
          | .pressed => shapeFrom sig self isLookup fuel (at' + 1) (st.addMadeUp (.int 1))
          | .joined => return [.ofBytes (Value.join true st.all)]
          | .all => return st.all
          | .again n =>
              if st.rest.isEmpty then shapeFrom sig self isLookup fuel (at' + 1) st
              else shapeFrom sig self isLookup fuel (at' - n) { st with again := true }
          | l => shapeFrom sig self isLookup fuel (at' + 1) (← st.addGiven l)

/-- The arguments that a command gets for those of a call. -/
def shape (sig : Signature) (self : Nat) (isLookup : Bool) (args : List Value) :
    Engine (List Value) :=
  shapeFrom sig.toArray self isLookup ((sig.length + 2) * (args.length + 2)) 0 { rest := args }

end ConsoleScript.Engine
