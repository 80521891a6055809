import ConsoleScript.Text.Bytes

/-!
Numerals: digits of a base, the most significant first. In settings and options, single underscores
may stand between digits to make a long numeral readable.
-/

namespace ConsoleScript.Numeral

/-- The value of a numeral in digits of a base. -/
def natOf (base : Nat) (digits : Bytes) : Nat :=
  digits.foldl (fun n c => n * base + (Byte.digitValue? c).getD 0) 0

/-- Whether a byte is a digit of a base. -/
def isDigitOf (base : Nat) (c : UInt8) : Bool := (Byte.digitValue? c).any (· < base)

/-- The digits of a numeral without the underscores between them. Each underscore follows a digit,
or what stands for one before the text, and has a digit behind it. -/
def digits? (base : Nat) : (afterDigit : Bool) → Bytes → Option Bytes
  | afterDigit, [] => if afterDigit then some [] else none
  | afterDigit, c :: s =>
      if isDigitOf base c then (digits? base true s).map (c :: ·)
      else if c == code '_' && afterDigit then digits? base false s
      else none

end ConsoleScript.Numeral
