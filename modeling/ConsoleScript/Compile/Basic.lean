import ConsoleScript.Compile.Cursor
import ConsoleScript.Compile.Piece
import ConsoleScript.Table

/-!
The state of the compiler and the code of literals. The compiler reads a cursor, adds unknown
aliases to the identifier table and collects warnings; it changes nothing else. An argument is
compiled for what the place wants: a type, a view instead of a text of its own, code, an identifier,
or nothing at all.
-/

namespace ConsoleScript.Compile

open Bytecode

/-- Results that are kept on the operand stack before further ones are computed in a run of their
own. -/
def maxResults : Nat := 7

/-- What an argument is compiled for. -/
inductive Want where
  | any
  /-- Any value; a text may be a view. -/
  | anyView
  | int
  | float
  | text
  /-- A text that may be a view. -/
  | textView
  /-- Code. -/
  | code
  /-- Code, or null for the empty text. -/
  | condition
  /-- A reference to an identifier. -/
  | ident
  /-- The first word of a statement. -/
  | head
  /-- Nothing: the argument is read and dropped. -/
  | nothing
deriving DecidableEq, Repr

namespace Want

/-- The tag of an instruction that gives the value, where `other` serves requests without a type of
their own. -/
def tagOr (other : RetTag) : Want → RetTag
  | .int => .int
  | .float => .float
  | .text | .textView => .text
  | _ => other

/-- The tag of a value of any type. -/
def tag (w : Want) : RetTag := w.tagOr .null

/-- Statements in parentheses give views if the place takes them. -/
def takesView : Want → Bool
  | .any | .int | .float | .text => false
  | _ => true

end Want

/-- The state of the compiler; the last warning is first. -/
structure State where
  cursor : Cursor
  table : Table
  warnings : List Bytes := []
  /-- Block literals that stood for a name, as they are in the source, the last first. Nothing that
  compiles reads them; they are there to say what happened. -/
  literalNames : List Bytes := []

abbrev CompileM := StateM State

/-- What the first word of a statement is. -/
inductive Head where
  | bare (name : Bytes)
  /-- Code that pushes what is to be called. -/
  | computed (code : Code)

/-- The compiler for arguments and first words that are nested in what is being compiled. The
number counts operands that are on the stack already; without an argument the answer is nothing. -/
structure Nested where
  arg : Want → Nat → CompileM (Option Code)
  head : Nat → CompileM (Option Head)

def cursor : CompileM Cursor := return (← get).cursor

def peek (k : Nat := 0) : CompileM UInt8 := return (← cursor).peek k

def advance (n : Nat) : CompileM Unit := modify fun s => { s with cursor := s.cursor.advance n }

def skipTo (p : UInt8 → Bool) : CompileM Unit :=
  modify fun s => { s with cursor := s.cursor.skipTo p }

/-- Passes over blanks and comments on the line. -/
def skipComments : CompileM Unit :=
  modify fun s => { s with cursor := { s.cursor with rest := skipBlanks false s.cursor.rest } }

/-- Passes over one byte and gives it; zero at the end. -/
def next : CompileM UInt8 := do
  let c ← peek
  advance 1
  return c

/-- A warning as it stands. -/
def note (text : Bytes) : CompileM Unit := modify fun s => { s with warnings := text :: s.warnings }

/-- A warning with the place, if the text has a label. -/
def warn (text : Bytes) : CompileM Unit := do
  let c ← cursor
  if c.name.isEmpty then note text
  else note (c.name ++ utf8 ":" ++ Bytes.ofNat c.line ++ utf8 ": " ++ text)

/-- The index of a name, which becomes an unknown alias if it is new. -/
def intern (name : Bytes) : CompileM Nat := do
  let s ← get
  let (i, isName, table) := s.table.intern name
  set { s with table }
  if !isName then note (utf8 "number " ++ name ++ utf8 " is not a valid identifier name")
  return i

def noteLiteralName (name : Bytes) : CompileM Unit :=
  modify fun s => { s with literalNames := name :: s.literalNames }

def roleOf (i : Nat) : CompileM Role := return ((← get).table.get? i).elim .alias Ident.role

/-- Passes over a string body and its closing quote, and gives the body. -/
def cutStringBody : CompileM Bytes := do
  let s := (← cursor).rest
  let n := Syntax.bodyLength s
  advance n
  if (← peek) == Syntax.quote then advance 1
  return s.take n

/-- The string at the cursor, with its escapes; the cursor is at the opening quote. -/
def cutRaw : CompileM Bytes := do
  advance 1
  cutStringBody

def cutString : CompileM Bytes := return Syntax.unescape (← cutRaw)

/-- The word at the cursor; empty if there is none. -/
def cutWord : CompileM Bytes := do
  let s := (← cursor).rest
  let n := Syntax.wordLength s
  advance n
  return s.take n

/-- One instruction without an operand. -/
def plain (op : Op) (ret : RetTag := .null) (arg : Nat := 0) : Code := [.instr (.plain op ret arg)]

def nullCode : Code := plain .valInline

def textCode (s : Bytes) : Code := [.instr (.ofText s)]

/-- Pushes a text as a view. -/
def viewCode (s : Bytes) : Code := [.instr (.ofView s)]

def intCode (i : Int32) : Code := [.instr (.ofInt i)]

def floatCode (x : Single) : Code := [.instr (.ofFloat x)]

/-- Pushes a reference; an argument slot is bound as well. -/
def identCode (i : Nat) : Code := plain (if i < maxArgs then .identArg else .ident) .null i

/-- Compiles a text of its own in place of the cursor. -/
def withText {α : Type} (text name : Bytes) (line : Nat) (m : CompileM α) : CompileM α := do
  let outer ← cursor
  modify fun s => { s with cursor := { rest := text, line, name } }
  let a ← m
  modify fun s => { s with cursor := outer }
  return a

/-- Pushes the dummy alias. -/
def dummyCode : Code := identCode dummyIndex

/-- Repeats the float before it, or gives zero if there is none. -/
def floatAgain (given : Nat) : Code :=
  if given == 0 then floatCode Single.zero else plain .dup .float

/-- Converts a value that was looked up to what the place wants. -/
def lookupTail : Want → Code
  | .nothing => plain .pop
  | .code => plain .compile
  | .condition => plain .cond
  | .ident => plain .identNamed
  | _ => []

end ConsoleScript.Compile
