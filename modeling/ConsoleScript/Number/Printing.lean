import ConsoleScript.Number.Single
import ConsoleScript.Number.Decimal

/-!
The texts of numbers. Scripts see integers as plain decimal numerals, and floats as such a numeral
if they are whole and fit an integer, else with seven significant digits. Listings show the fewest
digits that read back.
-/

namespace ConsoleScript.Printing

/-- The text of an integer. -/
def int (i : Int32) : Bytes := Bytes.ofInt i.toInt

def signed (neg : Bool) (s : Bytes) : Bytes := if neg then code '-' :: s else s

def whole? (m : Nat) (e : Int) : Option Nat :=
  if 0 ≤ e then some (m * Nat.pow 2 e.toNat)
  else if m % Nat.pow 2 (-e).toNat == 0 then some (m / Nat.pow 2 (-e).toNat) else none

/-- Significant digits of a float that is not printed as an integer. -/
def floatDigits : Nat := 7

/-- The text of a float in scripts. -/
def float (x : Single) : Bytes :=
  match x.datum with
  | .nan => utf8 "nan"
  | .inf neg => signed neg (utf8 "inf")
  | .finite neg m e =>
      let fractional :=
        let d := Decimal.fixed floatDigits m e
        let limit := if d.digits.length < floatDigits && d.point ≤ d.digits.length
          then d.digits.length else floatDigits
        signed neg (d.general limit)
      match whole? m e with
      | some n =>
          let i : Int := if neg then -n else n
          if Int32.minValue.toInt ≤ i && i ≤ Int32.maxValue.toInt then Bytes.ofInt i
          else fractional
      | none => fractional

/-- The text of a float in listings: scientific from a million on. -/
def listed (x : Single) : Bytes :=
  match x.datum with
  | .nan => utf8 "NaN"
  | .inf neg => if neg then utf8 "-Inf" else utf8 "+Inf"
  | .finite neg m e => signed neg ((Decimal.shortest Ieee.single m e).general 6)

end ConsoleScript.Printing
