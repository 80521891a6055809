import ConsoleScript.Interp
import ConsoleScript.Syntax.Words

/-!
The config script: statements that bring the persistent identifiers back when they are executed.
Variables come first, then aliases, each in the order of their names. The value of an alias is
written between brackets if it reads back from there unchanged, and else as a string.
-/

namespace ConsoleScript

namespace Entry

/-- Whether a text reads back from between brackets: brackets match, strings are closed, and
nothing in it is dropped or replaced. The stack holds the brackets that are open, and the mode tells
whether a string is. -/
def readsBackFrom : (inString : Bool) → (stack : Bytes) → Bytes → Bool
  | false, stack, [] => stack.isEmpty
  | true, _, [] => false
  | false, stack, c :: s =>
      if c == code '[' || c == code '(' then readsBackFrom false (c :: stack) s
      else if c == code ']' || c == code ')' then
        let opening := if c == code ')' then code '(' else code '['
        match stack with
        | d :: outer => d == opening && readsBackFrom false outer s
        | [] => false
      else if c == Syntax.quote then readsBackFrom true stack s
      else if c == code '@' || c == 0x0C || Syntax.startsComment (c :: s) then false
      else readsBackFrom false stack s
  | true, stack, c :: s =>
      if c == Syntax.quote then readsBackFrom false stack s
      else if Syntax.isLineBreak c then false
      else if c == Syntax.caret then
        match s with
        | [] => false
        | _ :: s => readsBackFrom true stack s
      else readsBackFrom true stack s

def readsBack (s : Bytes) : Bool := readsBackFrom false [] s

/-- The statement that brings an identifier back. -/
def statement (e : Entry) : Bytes :=
  if e.kind == utf8 "svar" then e.name ++ utf8 " " ++ Syntax.escape e.value
  else if e.kind == utf8 "alias" then
    if readsBack e.value then e.name ++ utf8 " = [" ++ e.value ++ utf8 "]"
    else e.name ++ utf8 " = " ++ Syntax.escape e.value
  else e.name ++ utf8 " " ++ e.value

end Entry

namespace Interp

/-- Whether an identifier is saved: it persists, and its value is its own and not that of an
override. -/
def isSaved (s : Interp) (id : Ident) : Bool :=
  let f := id.flags
  f.persist && !f.overridden && !f.readOnly && !f.arg && !f.unknown &&
    !Bytes.startsWith id.name (utf8 "//") &&
    (id.role.isVar || (id.role.isAlias && !(s.valueOf id).isNull))

/-- The saved form of an identifier. -/
def entryOf (s : Interp) (id : Ident) : Entry := ⟨id.name, utf8 id.role.kindName, s.textOf id⟩

/-- The saved identifiers: variables, then aliases, each in the order of their names. -/
def collect (s : Interp) : List Entry :=
  let saved := s.table.idents.toList.filter s.isSaved
  let sorted (ids : List Ident) : List Ident := ids.mergeSort fun a b => Bytes.le a.name b.name
  (sorted (saved.filter (·.role.isVar)) ++ sorted (saved.filter (·.role.isAlias))).map s.entryOf

/-- The first line of a config script. -/
def configHeader : Bytes := utf8 "// written automatically on exit; put overrides in autoexec.cfg\n"

/-- The statements of entries, one to a line, with an empty line before the first alias. -/
def statementLines : (aliases : Bool) → List Entry → Bytes
  | _, [] => []
  | aliases, e :: rest =>
      let isAlias := e.kind == utf8 "alias"
      (if isAlias && !aliases then utf8 "\n" else []) ++ e.statement ++ utf8 "\n" ++
        statementLines (aliases || isAlias) rest

def configScript (s : Interp) : Bytes := configHeader ++ statementLines false s.collect

end Interp

end ConsoleScript
