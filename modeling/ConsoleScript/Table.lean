import ConsoleScript.Ident

/-!
The identifier table: identifiers in the order of their indices, looked up by name. Names are never
removed, so an index stays good. Adding a name that is there replaces its identifier if the kind is
the same and fails if it is not.
-/

namespace ConsoleScript

/-- The identifiers by index. -/
structure Table where
  idents : Array Ident := #[]

/-- A name is taken by an identifier of another kind. -/
structure Conflict where
  name : Bytes
  old : String
  new : String
deriving Repr

def Conflict.message (c : Conflict) : Bytes :=
  Quoted.text c.name ++ utf8 " is a " ++ utf8 c.old ++ utf8 ", cannot register it as a " ++
    utf8 c.new ++ utf8 ": identifier already registered with a different kind"

namespace Table

def size (t : Table) : Nat := t.idents.size

def get? (t : Table) (i : Nat) : Option Ident := t.idents[i]?

def find? (t : Table) (name : Bytes) : Option Nat := t.idents.findIdx? (·.name == name)

def lookup? (t : Table) (name : Bytes) : Option (Nat × Ident) := do
  let i ← t.find? name
  return (i, ← t.get? i)

/-- The name of an index; the empty text if there is none. -/
def nameOf (t : Table) (i : Nat) : Bytes := (t.get? i).elim [] Ident.name

def names (t : Table) : List Bytes := t.idents.toList.map Ident.name

def push (t : Table) (id : Ident) : Table := ⟨t.idents.push id⟩

def modify (t : Table) (i : Nat) (f : Ident → Ident) : Table := ⟨t.idents.modify i f⟩

/-- Registers an identifier and gives its index. -/
def add (t : Table) (id : Ident) : Except Conflict (Nat × Table) :=
  match t.lookup? id.name with
  | none => .ok (t.size, t.push id)
  | some (i, old) =>
      if old.role.kindName == id.role.kindName then .ok (i, t.modify i fun _ => id)
      else .error ⟨id.name, old.role.kindName, id.role.kindName⟩

/-- An alias that was named but not defined. -/
def unknownAlias (name : Bytes) : Ident := { name, role := .alias, flags := { unknown := true } }

/-- The index of a name, which becomes an unknown alias if it is new. A number is no name: the
answer is then the index of the dummy alias, and the name is refused. -/
def intern (t : Table) (name : Bytes) : Nat × Bool × Table :=
  match t.find? name with
  | some i => (i, true, t)
  | none =>
      if Reading.isNumeral name then (dummyIndex, false, t)
      else (t.size, true, t.push (unknownAlias name))

/-- Whether the table, extended by unknown aliases, has the given names in the given order; the
extended table as far as the names agree. The first argument counts the names before. -/
def bindFrom : Nat → Table → List Bytes → Bool × Table
  | _, t, [] => (true, t)
  | i, t, name :: rest =>
      match t.get? i with
      | some id => if id.name == name then bindFrom (i + 1) t rest else (false, t)
      | none =>
          if (t.find? name).isSome || Reading.isNumeral name then (false, t)
          else bindFrom (i + 1) (t.push (unknownAlias name)) rest

/-- Gives the indices from zero on the names of a list, if they have them or are free. -/
def bind (t : Table) (names : List Bytes) : Bool × Table := bindFrom 0 t names

end Table

end ConsoleScript
