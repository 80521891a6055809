import ConsoleScript.Text.Bytes

/-!
What is kept of an interpreter: entries, each the name of an identifier with its kind and the text
of its value, and snapshots, which are entries under an id and a label.
-/

namespace ConsoleScript

/-- A saved identifier. -/
structure Entry where
  name : Bytes
  /-- The name of the kind of identifier. -/
  kind : Bytes
  value : Bytes
deriving DecidableEq, Repr

/-- A set of saved identifiers. -/
structure Snapshot where
  id : Bytes
  label : Bytes
  /-- When it was saved, in seconds since the first day of 1970. -/
  created : Nat
  entries : List Entry
deriving DecidableEq, Repr

end ConsoleScript
