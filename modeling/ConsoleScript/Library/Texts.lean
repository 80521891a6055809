import ConsoleScript.Text.LetterCase
import ConsoleScript.Syntax.Words
import ConsoleScript.Value

/-!
Text and list operations of the command library. Offsets and lengths count bytes, and arguments
outside a text are moved to its nearer end.
-/

namespace ConsoleScript.Texts

/-- Replaces a percent sign with a digit by the argument of that number; the arguments include the
pattern itself as number zero. Any other byte behind a percent sign stands for itself. -/
def format (args : List Value) : Bytes → Bytes
  | [] => []
  | [c] => if c == code '%' then [] else [c]
  | c :: d :: s =>
      if c != code '%' then c :: format args (d :: s)
      else if code '1' ≤ d && d ≤ code '9' then
        ((args[d.toNat - 0x30]?).elim [] Value.toBytes) ++ format args s
      else d :: format args s

/-- An integer moved into the range from zero to a length. -/
def offset (v : Int32) (length : Nat) : Nat := min v.toInt.toNat length

/-- The part of a text from an offset on, up to a length if there is one. -/
def substring (s : Bytes) (start : Int32) (length : Option Int32) : Bytes :=
  let rest := s.drop (offset start s.length)
  match length with
  | none => rest
  | some n => rest.take (offset n rest.length)

/-- The offset of a text in another, or -1. -/
def find (s p : Bytes) : Int32 := match Bytes.find? p s with
  | some n => Int32.ofNat n
  | none => -1

/-- The widest numeral that can be asked for. -/
def widestHex : Int32 := 1000000

/-- A number without its sign in hexadecimal, with a least number of digits. -/
def hex (v digits : Int32) : Bytes :=
  let numeral := Bytes.ofNatHex v.toUInt32.toNat
  if widestHex < digits then utf8 "0x%!(BADPREC)" ++ numeral
  else utf8 "0x" ++ Bytes.padLeft 0x30 (max digits 1).toInt.toNat numeral

/-- The element of a list with a number. -/
def element? (s : Bytes) (i : Int32) : Option Syntax.Element :=
  if i < 0 then none else (Syntax.elements s)[i.toInt.toNat]?

/-- The element found by following numbers into nested lists; a list inside a list is taken as it
stands in the text. -/
def elementAt : Syntax.Element → List Int32 → Bytes
  | e, [] => e.value
  | e, i :: rest => match element? e.text i with
    | none => []
    | some e => elementAt e rest

end ConsoleScript.Texts
