import ConsoleScript.Text.Bytes

/-!
Documents of settings. A document is a sequence of statements: a header opens a table, or adds one
to the tables under a name, and an assignment puts a value under a key of the open table. What the
statements come to is a tree of tables.
-/

namespace ConsoleScript

/-- A value of a document. -/
inductive Toml where
  | text (s : Bytes)
  | int (i : Int)
  | bool (b : Bool)
  | float
  /-- A date or a time. -/
  | moment
  | array (items : List Toml)
  | table (entries : List (Bytes × Toml))
  /-- Tables under one name, the last first. -/
  | tables (items : List (List (Bytes × Toml)))
deriving Inhabited

namespace Toml

/-- The values of a table by name. -/
abbrev Entries := List (Bytes × Toml)

/-- The names on the way to a value, from the outermost table on. -/
abbrev Key := List Bytes

/-- A value as it is written. -/
inductive Term where
  | text (s : Bytes)
  | int (i : Int)
  | bool (b : Bool)
  | float
  | moment
  | array (items : List Term)
  /-- A table between braces. -/
  | table (fields : List (Key × Term))
deriving Inhabited

/-- A statement of a document. -/
inductive Statement where
  /-- Opens a table. -/
  | table (key : Key)
  /-- Adds a table to those under one name, and opens it. -/
  | tables (key : Key)
  | assign (key : Key) (value : Term)

/-- Puts a value under a name, in place of the one that is there. -/
def insert {α : Type} (name : Bytes) (v : α) : List (Bytes × α) → List (Bytes × α)
  | [] => [(name, v)]
  | (n, w) :: rest => if n == name then (n, v) :: rest else (n, w) :: insert name v rest

/-- The value at a key. Where there are several tables under a name, the way leads through the
last one. -/
def find? : Key → Entries → Option Toml
  | [], _ => none
  | [name], entries => entries.lookup name
  | name :: rest, entries => match entries.lookup name with
    | some (.table inner) => find? rest inner
    | some (.tables (last :: _)) => find? rest last
    | _ => none

/-- Whether there is a table at every name on the way to a key. -/
def isOpen : Key → Entries → Bool
  | [], _ | [_], _ => true
  | name :: rest, entries => match entries.lookup name with
    | some (.table inner) => isOpen rest inner
    | some (.tables (last :: _)) => isOpen rest last
    | _ => false

/-- Puts a value at a key; there must be a table at every name on the way. -/
def store (v : Toml) : Key → Entries → Option Entries
  | [], _ => none
  | [name], entries => some (insert name v entries)
  | name :: rest, entries => match entries.lookup name with
    | some (.table inner) => (store v rest inner).map fun es => insert name (.table es) entries
    | some (.tables (last :: before)) =>
        (store v rest last).map fun es => insert name (.tables (es :: before)) entries
    | _ => none

/-- Puts a value at a key, and tables on the way where there are none. -/
def storeDeep (v : Toml) : Key → Entries → Option Entries
  | [], _ => none
  | [name], entries => some (insert name v entries)
  | name :: rest, entries => match entries.lookup name with
    | none => (storeDeep v rest []).map fun es => insert name (.table es) entries
    | some (.table inner) => (storeDeep v rest inner).map fun es => insert name (.table es) entries
    | some _ => none

end Toml

end ConsoleScript
