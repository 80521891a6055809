import ConsoleScript.Text.Bytes

/-!
Byte texts read as UTF-8. A text is split into units: a code point with its encoding, or a single
byte that begins no well-formed encoding (overlong forms, surrogates and values past U+10FFFF are
not well formed). Concatenating the encodings of the units gives the text back.
-/

namespace ConsoleScript.Utf8

/-- One unit of a byte text. -/
inductive Rune where
  /-- A well-formed code point. -/
  | point (c : Nat)
  /-- A byte that begins no well-formed encoding. -/
  | stray (b : UInt8)
deriving DecidableEq, Repr

/-- The encoding of a code point. -/
def encode (c : Nat) : Bytes :=
  if c < 0x80 then [UInt8.ofNat c]
  else if c < 0x800 then [UInt8.ofNat (0xC0 + c / 0x40), UInt8.ofNat (0x80 + c % 0x40)]
  else if c < 0x10000 then
    [UInt8.ofNat (0xE0 + c / 0x1000), UInt8.ofNat (0x80 + c / 0x40 % 0x40),
      UInt8.ofNat (0x80 + c % 0x40)]
  else
    [UInt8.ofNat (0xF0 + c / 0x40000), UInt8.ofNat (0x80 + c / 0x1000 % 0x40),
      UInt8.ofNat (0x80 + c / 0x40 % 0x40), UInt8.ofNat (0x80 + c % 0x40)]

/-- The payload of a continuation byte. -/
def tail? (b : UInt8) : Option Nat :=
  if 0x80 ≤ b && b ≤ 0xBF then some (b.toNat - 0x80) else none

/-- Code points that are not surrogates and do not exceed the last plane. -/
def isScalar (c : Nat) : Bool := (c < 0xD800 || 0xDFFF < c) && c ≤ 0x10FFFF

/-- The code point whose encoding begins the text, with the number of its bytes. -/
def first? : Bytes → Option (Nat × Nat)
  | [] => none
  | a :: s =>
      if a < 0x80 then some (a.toNat, 1)
      else if 0xC2 ≤ a && a ≤ 0xDF then do
        let b ← s.head? >>= tail?
        return ((a.toNat - 0xC0) * 0x40 + b, 2)
      else if 0xE0 ≤ a && a ≤ 0xEF then do
        let b ← s.head? >>= tail?
        let c ← s[1]? >>= tail?
        let p := ((a.toNat - 0xE0) * 0x40 + b) * 0x40 + c
        if 0x800 ≤ p && isScalar p then some (p, 3) else none
      else if 0xF0 ≤ a && a ≤ 0xF4 then do
        let b ← s.head? >>= tail?
        let c ← s[1]? >>= tail?
        let d ← s[2]? >>= tail?
        let p := (((a.toNat - 0xF0) * 0x40 + b) * 0x40 + c) * 0x40 + d
        if 0x10000 ≤ p && isScalar p then some (p, 4) else none
      else none

/-- Units of the text; the first argument counts bytes of the current unit still to be passed. -/
def runesFrom : Nat → Bytes → List Rune
  | _, [] => []
  | skip + 1, _ :: s => runesFrom skip s
  | 0, b :: s => match first? (b :: s) with
    | some (c, n) => .point c :: runesFrom (n - 1) s
    | none => .stray b :: runesFrom 0 s

/-- The units of a byte text. -/
def runes (s : Bytes) : List Rune := runesFrom 0 s

/-- Every byte belongs to a well-formed encoding. -/
def isValid (s : Bytes) : Bool := (runes s).all fun
  | .point _ => true
  | .stray _ => false

/-- The replacement character, which stands for bytes that are not well formed. -/
def replacement : Nat := 0xFFFD

def Rune.bytes : Rune → Bytes
  | .point c => encode c
  | .stray b => [b]

/-- White space of Unicode. -/
def isBlank (c : Nat) : Bool :=
  (0x09 ≤ c && c ≤ 0x0D) || c == 0x20 || c == 0x85 || c == 0xA0 || c == 0x1680 ||
    (0x2000 ≤ c && c ≤ 0x200A) || c == 0x2028 || c == 0x2029 || c == 0x202F || c == 0x205F ||
    c == 0x3000

def Rune.isBlank : Rune → Bool
  | .point c => Utf8.isBlank c
  | .stray _ => false

/-- Removes white space at both ends. -/
def trim (s : Bytes) : Bytes :=
  (((runes s).dropWhile Rune.isBlank).reverse.dropWhile Rune.isBlank).reverse.flatMap Rune.bytes

end ConsoleScript.Utf8
