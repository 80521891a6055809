import ConsoleScript.Engine.Bindings

/-!
Writes to variables and aliases. A write to a variable is refused if the variable is read-only,
clamped to the variable's range, and followed by the variable's watcher. In override mode, or if the
variable asks for it, the value before the first write is kept and comes back when overrides are
cleared; a plain write makes an overridden variable plain again.
-/

namespace ConsoleScript.Engine

/-- Tells the watcher of a variable that it was written. -/
def notify (k : Runner) (i : Nat) : Engine Unit := do
  let id ← identAt i
  match id.role.watch with
  | .none => return
  | .persistence => modify Interp.stampPersistence
  | .host f => let _ ← runHost k (f ((← get).valueOf id))

/-- Applies the rules of overriding before a write; false if the write is to be dropped. -/
def override (i : Nat) (id : Ident) : Engine Bool := do
  let s ← get
  if s.writeFlags.overridden || id.flags.override then
    if id.flags.persist then
      debug (utf8 "cannot override persistent variable " ++ id.name)
      return false
    if !id.flags.overridden then
      modifyIdent i fun id => { id with
        before := s.valueOf id
        flags := { id.flags with overridden := true } }
  else if id.flags.overridden then
    modifyIdent i fun id => { id with
      before := .null
      flags := { id.flags with overridden := false } }
  return true

/-- Whether a variable takes a write; says why not. -/
def admits (i : Nat) : Engine Bool := do
  let id ← identAt i
  if id.flags.readOnly then
    debug (utf8 "variable " ++ id.name ++ utf8 " is read-only")
    return false
  else override i id

def clampInt (least greatest v : Int32) : Int32 :=
  if v < least then least else if v > greatest then greatest else v

/-- Not-a-number is in every range. -/
def clampFloat (least greatest v : Single) : Single :=
  if v.lt least then least else if greatest.lt v then greatest else v

/-- Stores a number in an integer variable. -/
def storeInt (i : Nat) (choose : (least greatest : Int32) → Int32) : Engine Unit := do
  match (← identAt i).role with
  | .intVar least greatest store watch =>
      let v := choose least greatest
      match store with
      | .own _ =>
          modifyIdent i fun id => { id with role := .intVar least greatest (.own v) watch }
      | .shared c => modify (·.setCell c v)
  | _ => fail .badAccess

/-- Stores a number in a float variable. -/
def storeFloat (i : Nat) (choose : (least greatest : Single) → Single) : Engine Unit := do
  match (← identAt i).role with
  | .floatVar least greatest _ watch =>
      modifyIdent i fun id =>
        { id with role := .floatVar least greatest (choose least greatest) watch }
  | _ => fail .badAccess

def storeText (i : Nat) (t : Bytes) : Engine Unit := do
  match (← identAt i).role with
  | .textVar _ watch => modifyIdent i fun id => { id with role := .textVar t watch }
  | _ => fail .badAccess

def setIntVar (k : Runner) (i : Nat) (v : Int32) : Engine Unit := do
  if ← admits i then
    storeInt i fun least greatest => clampInt least greatest v
    notify k i

def setFloatVar (k : Runner) (i : Nat) (v : Single) : Engine Unit := do
  if ← admits i then
    storeFloat i fun least greatest => clampFloat least greatest v
    notify k i

def setTextVar (k : Runner) (i : Nat) (t : Bytes) : Engine Unit := do
  if ← admits i then
    storeText i t
    notify k i

/-- Writes an identifier as an assignment does. -/
def assign (k : Runner) (i : Nat) (v : Value) : Engine Unit := do
  let id ← identAt i
  match id.role with
  | .alias => if i < maxArgs then setArg i v else setAlias i v
  | .intVar .. => setIntVar k i v.toInt
  | .floatVar .. => setFloatVar k i v.toSingle
  | .textVar .. => setTextVar k i v.toBytes
  | _ => debug (utf8 "cannot redefine builtin " ++ id.name ++ utf8 " with an alias")

/-- Writes what a name stands for; a new name becomes an alias. -/
def assignNamed (k : Runner) (name : Bytes) (v : Value) : Engine Unit := do
  let table := (← get).table
  match table.find? name with
  | some i => assign k i v
  | none =>
      if Reading.isNumeral name then debug (utf8 "cannot alias number " ++ name)
      else
        modify fun s => { s with table := s.table.push { name, role := .alias } }
        setAlias table.size v

/-- Brings an overridden identifier back: a variable gets its value from before, an alias becomes
empty. -/
def clearOverride (k : Runner) (i : Nat) : Engine Unit := do
  let id ← identAt i
  if id.flags.overridden then
    match id.role with
    | .alias => if id.value.text? != some [] then modifyIdent i (·.setValue (.ofBytes []))
    | .intVar .. =>
        storeInt i fun _ _ => id.before.toInt
        notify k i
    | .floatVar .. =>
        storeFloat i fun _ _ => id.before.toSingle
        notify k i
    | .textVar .. =>
        storeText i id.before.toBytes
        notify k i
    | _ => pure ()
    modifyIdent i fun id => { id with
      before := .null
      flags := { id.flags with overridden := false } }

/-- Brings a named identifier back, unless it is never overridden. -/
def resetNamed (k : Runner) (name : Bytes) : Engine Unit := do
  match (← get).table.lookup? name with
  | none => return
  | some (i, id) =>
      if id.flags.readOnly || (id.flags.persist && id.role.isVar) then
        debug (utf8 "variable " ++ id.name ++ utf8 " is read-only")
      else clearOverride k i

/-- Prints a variable as naming it does. -/
def printVar (i : Nat) : Engine Unit := do
  let id ← identAt i
  ((← get).printed? id).forM echo

end ConsoleScript.Engine
