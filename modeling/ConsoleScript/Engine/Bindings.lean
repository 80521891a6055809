import ConsoleScript.Engine.Basic

/-!
Bindings of argument slots and aliases. Each identifier keeps the values that are shadowed; a scope
records which argument slots its call has bound. The first write to a slot in a scope saves the
value of the caller, later ones replace it, and the end of the call restores what was saved.

Code can also be run with the arguments of the caller: the slots of the innermost scope are taken
off, a marked scope with the caller's set is put on top, and both are undone at the end. Such marked
scopes count one caller each when code inside asks for its caller in turn.
-/

namespace ConsoleScript.Engine

/-- Saves the value of an identifier and installs another. -/
def pushArg (i : Nat) (v : Value) : Engine Unit := modifyIdent i (·.pushValue v)

/-- Restores the value that was saved last. -/
def popArg (i : Nat) : Engine Unit := do
  let id ← identAt i
  match id.saved with
  | [] => fail (.noSavedBinding id.name)
  | v :: rest => modifyIdent i fun id => { id with value := v, saved := rest, body := none }

/-- A named alias, which is shadowed by itself; argument slots belong to scopes. -/
def isNamedAlias (i : Nat) (id : Ident) : Bool := id.role.isAlias && maxArgs ≤ i

def clearUnknown (id : Ident) : Ident := { id with flags := { id.flags with unknown := false } }

/-- Shadows a named alias with null. -/
def pushAlias (i : Nat) : Engine Unit := do
  if isNamedAlias i (← identAt i) then
    pushArg i .null
    modifyIdent i clearUnknown

/-- Ends the shadowing of a named alias. -/
def popAlias (i : Nat) : Engine Unit := do
  if isNamedAlias i (← identAt i) then popArg i

/-- Marks a slot as bound in the innermost scope. -/
def markUsed (i : Nat) : Engine Unit := modify fun s => s.setUsed (s.used ||| SlotSet.single i)

/-- Writes an argument slot. -/
def setArg (i : Nat) (v : Value) : Engine Unit := do
  if (← get).isBound i then modifyIdent i (·.setValue v)
  else
    pushArg i v
    markUsed i

/-- Binds an argument slot to null if it is not bound. -/
def bindArg (i : Nat) : Engine Unit := do
  unless (← get).isBound i do
    pushArg i .null
    markUsed i

def setAlias (i : Nat) (v : Value) : Engine Unit := do
  let flags := (← get).writeFlags
  modify (·.addWrite i flags)
  modifyIdent i fun id => { id.setValue v with flags }

def pushScope (c : Scope) : Engine Unit := modify fun s => { s with scopes := c :: s.scopes }

/-- Leaves the innermost scope and gives the slots it has bound. -/
def popScope : Engine SlotSet := do
  let s ← get
  set { s with scopes := s.scopes.tail }
  return s.used

/-- The innermost scope whose caller is not in effect yet, and the scopes around it. A marked scope
puts the caller of one more scope in effect, counted by the first argument. -/
def scopeInEffect? : (marked : Nat) → List Scope → Option (Scope × List Scope)
  | _, [] => none
  | marked, c :: rest =>
      if c.used.has maxArgs then scopeInEffect? (marked + 1) rest
      else match marked with
        | 0 => some (c, rest)
        | marked + 1 => scopeInEffect? marked rest

/-- Takes a slot's binding off and gives it. -/
def takeArg (i : Nat) : Engine (Nat × Value) := do
  let v := (← identAt i).value
  popArg i
  return (i, v)

/-- Takes the arguments of the caller out of effect: unbinds the slots that were bound meanwhile and
puts the bindings back that were taken off. -/
def leaveOuter (caller : SlotSet) (taken : List (Nat × Value)) : Engine Unit := do
  let used ← popScope
  SlotSet.toList (used &&& ~~~caller) |>.reverse.forM popArg
  taken.forM fun (i, v) => pushArg i v

/-- Runs a computation with the arguments of the caller in effect; outside all calls nothing
changes. Slots that are first bound inside are unbound again at the end. -/
def withOuterArgs {α : Type} (m : Engine α) : Engine α := do
  modify Interp.addOuterRun
  let s ← get
  match scopeInEffect? 0 s.scopes with
  | none => m
  | some (c, rest) =>
      let caller := { s with scopes := rest }.used
      let taken ← c.used.toList.mapM takeArg
      pushScope ⟨c.ident, SlotSet.outerMark ||| caller⟩
      ensuring m (leaveOuter caller taken)

/-- Ends a call: unbinds the slots of its arguments and those that were bound meanwhile. -/
def leaveCall (argc : Nat) (callArgs : Int32) (writeFlags : Flags) : Engine Unit := do
  let used ← popScope
  modify (·.restoreFlags writeFlags)
  (List.range argc).forM popArg
  (used.toList.filter (argc ≤ ·)).forM popArg
  modify fun s => { s with callArgs }

/-- Binds arguments to the first slots, runs a computation in a scope of its own, and restores the
bindings of the caller. -/
def withArgs {α : Type} (ident : Nat) (overridden : Bool) (args : List Value) (m : Engine α) :
    Engine α := do
  let argc := args.length
  args.zipIdx.forM fun (v, i) => pushArg i v
  let callArgs := (← get).callArgs
  let writeFlags := (← get).writeFlags
  modify fun s => { s with
    callArgs := Int32.ofNat argc
    writeFlags := { writeFlags with overridden := writeFlags.overridden || overridden } }
  pushScope ⟨ident, SlotSet.below argc⟩
  ensuring m (leaveCall argc callArgs writeFlags)

end ConsoleScript.Engine
