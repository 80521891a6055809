import ConsoleScript.Syntax.Words

/-!
A place in a source text: what is left of the text, the number of the current line, and the label
of the text for warnings. Looking past the end sees zero bytes.
-/

namespace ConsoleScript.Compile

/-- A place in a source text. -/
structure Cursor where
  rest : Bytes
  line : Nat := 1
  name : Bytes := []

namespace Cursor

/-- The byte `k` places ahead. -/
def peek (c : Cursor) (k : Nat := 0) : UInt8 := Bytes.byteAt c.rest k

/-- Passes over `n` bytes. -/
def advance (c : Cursor) (n : Nat) : Cursor :=
  { c with rest := c.rest.drop n, line := c.line + (c.rest.take n).count 0x0A }

/-- The bytes before the first one that satisfies a predicate. -/
def before (p : UInt8 → Bool) (c : Cursor) : Bytes := c.rest.takeWhile (!p ·)

/-- Passes over the bytes before the first one that satisfies a predicate. -/
def skipTo (p : UInt8 → Bool) (c : Cursor) : Cursor := c.advance (c.before p).length

end Cursor

/-- What follows blanks and comments on a line; the first argument tells whether a comment is open.
The line feed stays. -/
def skipBlanks : (comment : Bool) → Bytes → Bytes
  | _, [] => []
  | true, c :: s => if c == 0x0A then c :: s else skipBlanks true s
  | false, c :: s =>
      if c == 0x20 || c == 0x09 || c == 0x0D then skipBlanks false s
      else if Syntax.startsComment (c :: s) then skipBlanks true s
      else c :: s

end ConsoleScript.Compile
