import ConsoleScript.Syntax.Escape

/-!
Bare words and list elements. A word ends at a blank, a quote, a semicolon or a comment; brackets
and parentheses inside it must match, and a closing one that matches nothing ends it. A list is a
text of elements between blanks and comments, where a quoted string and a bracketed or
parenthesised text count as one element each.
-/

namespace ConsoleScript.Syntax

/-- Blanks between list elements. -/
def isGap (c : UInt8) : Bool := c == 0x20 || c == 0x09 || c == 0x0D || c == 0x0A

/-- A comment begins with two slashes. -/
def startsComment : Bytes → Bool
  | 0x2F :: 0x2F :: _ => true
  | _ => false

/-- Bytes that end a word at any depth. -/
def endsWord (c : UInt8) : Bool := c == quote || c == code ';' || isGap c

/-- The number of bytes of the word at the beginning of a text. The first argument holds the
closing brackets still to come, innermost first: one that closes an outer pair closes the inner
ones with it. -/
def wordLengthIn : (closers : Bytes) → Bytes → Nat
  | _, [] => 0
  | closers, c :: s =>
      if endsWord c || startsComment (c :: s) then 0
      else if c == code '[' then 1 + wordLengthIn (code ']' :: closers) s
      else if c == code '(' then 1 + wordLengthIn (code ')' :: closers) s
      else if c == code ']' || c == code ')' then
        match closers.dropWhile (· != c) with
        | [] => 0
        | _ :: outer => 1 + wordLengthIn outer s
      else 1 + wordLengthIn closers s

def wordLength (s : Bytes) : Nat := wordLengthIn [] s

/-- An element of a list as it stands in the text; the body of a quoted one still has its
escapes. -/
structure Element where
  text : Bytes
  quoted : Bool
deriving DecidableEq, Repr

def Element.value (e : Element) : Bytes := if e.quoted then unescape e.text else e.text

/-- Passes over blanks and comments; the first argument tells whether a comment is open. -/
def skipGap : (comment : Bool) → Bytes → Bytes
  | _, [] => []
  | true, c :: s => skipGap (c != 0x0A) s
  | false, c :: s =>
      if isGap c then skipGap false s
      else if startsComment (c :: s) then skipGap true s
      else c :: s

/-- Where a scan for a closing bracket stands. -/
inductive ScanMode where
  | plain
  | quoted
  /-- Behind a caret in a string. -/
  | escaped
  | comment
deriving DecidableEq, Repr

/-- The mode after a byte of a string: its end is a quote or a line break. -/
def ScanMode.inString (escaped : Bool) (c : UInt8) : ScanMode :=
  if isLineBreak c then .plain
  else if escaped then .quoted
  else if c == quote then .plain
  else if c == caret then .escaped
  else .quoted

/-- The bytes before the closing bracket at depth zero, and those after it. Brackets of the other
kind, and those in strings and comments, do not count. -/
def cutBracketed (opening closing : UInt8) : (depth : Nat) → ScanMode → Bytes → Bytes × Bytes
  | _, _, [] => ([], [])
  | depth, .plain, c :: s =>
      let keep (r : Bytes × Bytes) : Bytes × Bytes := (c :: r.1, r.2)
      if c == quote then keep (cutBracketed opening closing depth .quoted s)
      else if startsComment (c :: s) then keep (cutBracketed opening closing depth .comment s)
      else if c == opening then keep (cutBracketed opening closing (depth + 1) .plain s)
      else if c == closing then
        match depth with
        | 0 => ([], s)
        | depth + 1 => keep (cutBracketed opening closing depth .plain s)
      else keep (cutBracketed opening closing depth .plain s)
  | depth, .quoted, c :: s =>
      let r := cutBracketed opening closing depth (.inString false c) s
      (c :: r.1, r.2)
  | depth, .escaped, c :: s =>
      let r := cutBracketed opening closing depth (.inString true c) s
      (c :: r.1, r.2)
  | depth, .comment, c :: s =>
      let r := cutBracketed opening closing depth (if c == 0x0A then .plain else .comment) s
      (c :: r.1, r.2)

/-- The element at the beginning of a text without a gap in front, and the rest. A byte that is no
word by itself, such as a closing bracket, is an element. -/
def cutElement (s : Bytes) : Option (Element × Bytes) :=
  match s with
  | [] => none
  | c :: t =>
      if c == quote then
        let (body, rest) := cutBody t
        some (⟨body, true⟩, rest)
      else if c == code '(' then
        let (body, rest) := cutBracketed c (code ')') 0 .plain t
        some (⟨body, false⟩, rest)
      else if c == code '[' then
        let (body, rest) := cutBracketed c (code ']') 0 .plain t
        some (⟨body, false⟩, rest)
      else
        let n := max 1 (wordLength s)
        some (⟨s.take n, false⟩, s.drop n)

/-- The next element of a list, and the rest. -/
def nextElement (s : Bytes) : Option (Element × Bytes) := cutElement (skipGap false s)

/-- The elements of a list; the fuel bounds their number. -/
def elementsFrom : (fuel : Nat) → Bytes → List Element
  | 0, _ => []
  | fuel + 1, s => match nextElement s with
    | none => []
    | some (e, rest) => e :: elementsFrom fuel rest

/-- The elements of a list. Each takes a byte at least, so there are no more than bytes. -/
def elements (s : Bytes) : List Element := elementsFrom s.length s

/-- The values of the elements of a list. -/
def parseList (s : Bytes) : List Bytes := (elements s).map Element.value

/-- Drops elements from the front; nothing is left if there are not so many. -/
def dropElements : Nat → Bytes → Option Bytes
  | 0, s => some s
  | n + 1, s => match nextElement s with
    | none => none
    | some (_, rest) => dropElements n rest

/-- What is left after at most `n` elements, each of which is there. -/
def passElements : Nat → Bytes → Bytes
  | 0, s => s
  | n + 1, s => match nextElement s with
    | none => s
    | some (_, rest) => passElements n rest

/-- The part of a list that holds `count` elements, or all of them, behind the first `skip`, as it
stands in the text. -/
def sublist (s : Bytes) (skip : Nat) (count : Option Nat) : Bytes :=
  match dropElements skip s with
  | none => []
  | some t =>
      let count := count.getD t.length
      if count == 0 || (nextElement t).isNone then []
      else
        let from' := skipGap false t
        from'.take (from'.length - (passElements count t).length)

end ConsoleScript.Syntax
