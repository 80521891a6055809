import ConsoleScript.Text.Bytes

/-!
Quoted strings of the language. A string body ends at a double quote, a line break or the end of
the text, and a caret takes the byte after it into the body. Reading resolves the caret escapes;
writing puts a text between quotes so that it reads back.
-/

namespace ConsoleScript.Syntax

def isLineBreak (c : UInt8) : Bool := c == 0x0D || c == 0x0A

def quote : UInt8 := 0x22

def caret : UInt8 := 0x5E

/-- The number of bytes of the string body at the beginning of a text. A caret before a line break
is the last byte of the body. -/
def bodyLength : Bytes → Nat
  | [] => 0
  | [c] => if isLineBreak c || c == quote then 0 else 1
  | c :: d :: s =>
      if isLineBreak c || c == quote then 0
      else if c == caret then
        if isLineBreak d then 1 else 2 + bodyLength s
      else 1 + bodyLength (d :: s)

/-- The string body at the beginning of a text, and what follows its closing quote, if it has
one. -/
def cutBody (s : Bytes) : Bytes × Bytes :=
  let n := bodyLength s
  match s.drop n with
  | c :: rest => (s.take n, if c == quote then rest else c :: rest)
  | [] => (s.take n, [])

/-- Resolves the caret escapes of a string body: line feed, tab and form feed have letters, an
escaped line break is dropped, and any other byte stands for itself. Carriage returns that are not
escaped are dropped too, and so is a caret at the end. -/
def unescape : Bytes → Bytes
  | [] => []
  | [c] => if c == 0x0D || c == caret then [] else [c]
  | c :: e :: s =>
      if c == 0x0D then unescape (e :: s)
      else if c == caret then
        if e == code 'n' then 0x0A :: unescape s
        else if e == code 't' then 0x09 :: unescape s
        else if e == code 'f' then 0x0C :: unescape s
        else if e == 0x0D then
          match s with
          | 0x0A :: t => unescape t
          | s => unescape s
        else if e == 0x0A then unescape s
        else e :: unescape s
      else c :: unescape (e :: s)

/-- The escape of a byte inside quotes. -/
def escapeByte (c : UInt8) : Bytes :=
  if c == 0x0A then [caret, code 'n']
  else if c == 0x09 then [caret, code 't']
  else if c == 0x0C then [caret, code 'f']
  else if c == quote then [caret, quote]
  else if c == caret then [caret, caret]
  else [c]

/-- A text between quotes. -/
def escape (s : Bytes) : Bytes := [quote] ++ s.flatMap escapeByte ++ [quote]

end ConsoleScript.Syntax
