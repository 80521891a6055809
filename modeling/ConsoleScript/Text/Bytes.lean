/-!
Script text is a sequence of bytes, not of characters: a script may hold any byte, and lengths,
offsets and comparisons count bytes. This module has the byte classes that the language tests
and the general operations on byte texts: search, replacement, decimal and hexadecimal numerals,
and the lexicographic order.
-/

namespace ConsoleScript

abbrev Bytes := List UInt8

def utf8 (s : String) : Bytes := s.toUTF8.data.toList

def code (c : Char) : UInt8 := UInt8.ofNat c.toNat

namespace Byte

def isDigit (c : UInt8) : Bool := 0x30 ≤ c && c ≤ 0x39

def isLower (c : UInt8) : Bool := 0x61 ≤ c && c ≤ 0x7A

def isUpper (c : UInt8) : Bool := 0x41 ≤ c && c ≤ 0x5A

def isAlpha (c : UInt8) : Bool := isLower c || isUpper c

def isAlnum (c : UInt8) : Bool := isAlpha c || isDigit c

/-- Printable ASCII that is neither a letter, a digit nor the blank. -/
def isPunct (c : UInt8) : Bool := 0x20 < c && c < 0x7F && !isAlnum c

/-- The six blanks of ASCII: tab, line feed, vertical tab, form feed, carriage return, space. -/
def isSpace (c : UInt8) : Bool := c == 0x20 || (0x09 ≤ c && c ≤ 0x0D)

/-- The value of a digit in any base up to sixteen. -/
def digitValue? (c : UInt8) : Option Nat :=
  if isDigit c then some (c.toNat - 0x30)
  else if 0x61 ≤ c && c ≤ 0x66 then some (c.toNat - 0x61 + 10)
  else if 0x41 ≤ c && c ≤ 0x46 then some (c.toNat - 0x41 + 10)
  else none

def isHexDigit (c : UInt8) : Bool := (digitValue? c).isSome

/-- ASCII capitals become small letters and all other bytes stay. -/
def toLower (c : UInt8) : UInt8 := if isUpper c then c + 0x20 else c

end Byte

namespace Bytes

/-- The byte at an offset, and zero past the end. -/
def byteAt (s : Bytes) (i : Nat) : UInt8 := s.getD i 0

/-- Lexicographic order by byte value; a proper beginning comes first. -/
def compare : Bytes → Bytes → Ordering
  | [], [] => .eq
  | [], _ :: _ => .lt
  | _ :: _, [] => .gt
  | a :: s, b :: t => if a < b then .lt else if b < a then .gt else compare s t

def le (s t : Bytes) : Bool := compare s t != .gt

def dropPrefix? : (p s : Bytes) → Option Bytes
  | [], s => some s
  | _ :: _, [] => none
  | a :: p, b :: s => if a == b then dropPrefix? p s else none

def startsWith (s p : Bytes) : Bool := (dropPrefix? p s).isSome

def endsWith (s p : Bytes) : Bool := startsWith s.reverse p.reverse

/-- The offset of the first occurrence of `p`. -/
def find? (p : Bytes) : Bytes → Option Nat
  | [] => if p.isEmpty then some 0 else none
  | c :: s => if startsWith (c :: s) p then some 0 else (find? p s).map (· + 1)

/-- Replaces the occurrences of `p` from left to right; the first argument counts the bytes of an
occurrence that are still to be dropped. -/
def replaceFrom (p r : Bytes) : Nat → Bytes → Bytes
  | _, [] => []
  | skip + 1, _ :: s => replaceFrom p r skip s
  | 0, c :: s =>
      if startsWith (c :: s) p then r ++ replaceFrom p r (p.length - 1) s
      else c :: replaceFrom p r 0 s

/-- Replaces every occurrence of the nonempty text `p` by `r`. -/
def replace (p r s : Bytes) : Bytes := if p.isEmpty then s else replaceFrom p r 0 s

/-- The texts joined with a separator between neighbours. -/
def joinWith (sep : Bytes) : List Bytes → Bytes
  | [] => []
  | [s] => s
  | s :: t :: rest => s ++ sep ++ joinWith sep (t :: rest)

/-- Lines of `s`, where `line` holds the bytes of the current line in reverse. -/
def linesFrom (line : Bytes) : Bytes → List Bytes
  | [] => if line.isEmpty then [] else [line.reverse]
  | c :: s => if c == 0x0A then line.reverse :: linesFrom [] s else linesFrom (c :: line) s

/-- Lines without their line feeds; text after the last line feed is a line if it is not empty. -/
def lines (s : Bytes) : List Bytes := linesFrom [] s

/-- Fills with blanks on the right up to a width. -/
def padRight (width : Nat) (s : Bytes) : Bytes := s ++ List.replicate (width - s.length) 0x20

def padLeft (fill : UInt8) (width : Nat) (s : Bytes) : Bytes :=
  List.replicate (width - s.length) fill ++ s

/-- The digit character of a value below sixteen. -/
def digit (upper : Bool) (d : Nat) : UInt8 :=
  if d < 10 then UInt8.ofNat (0x30 + d)
  else UInt8.ofNat ((if upper then 0x41 else 0x61) + (d - 10))

/-- Digits of `n`, most significant first, put before `acc`. The fuel bounds their number. -/
def digitsAux (base : Nat) (upper : Bool) : Nat → Nat → Bytes → Bytes
  | 0, _, acc => acc
  | fuel + 1, n, acc =>
      let acc := digit upper (n % base) :: acc
      if n / base == 0 then acc else digitsAux base upper fuel (n / base) acc

/-- Decimal numeral. -/
def ofNat (n : Nat) : Bytes := digitsAux 10 false (n + 1) n []

/-- Hexadecimal numeral in capitals. -/
def ofNatHex (n : Nat) : Bytes := digitsAux 16 true (n + 1) n []

/-- Decimal numeral with a minus sign for negative numbers. -/
def ofInt : Int → Bytes
  | .ofNat n => ofNat n
  | .negSucc n => code '-' :: ofNat (n + 1)

/-- Hexadecimal of at least `width` characters, filled with zeros after the sign. -/
def ofIntHexPadded (width : Nat) : Int → Bytes
  | .ofNat n => padLeft 0x30 width (ofNatHex n)
  | .negSucc n => code '-' :: padLeft 0x30 (width - 1) (ofNatHex (n + 1))

end Bytes

end ConsoleScript
