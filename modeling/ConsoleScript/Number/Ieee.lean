/-!
Binary interchange formats, as bit patterns. A pattern decodes to not-a-number, an infinity or an
exact dyadic value `m · 2 ^ e`, and an exact dyadic value or quotient is rounded to the nearest
pattern, a tie going to the even one. All arithmetic is on whole numbers, so no step of a
conversion rounds but the last.
-/

namespace ConsoleScript.Ieee

/-- A format by the widths of its fraction and exponent fields. -/
structure Format where
  fracBits : Nat
  expBits : Nat

def single : Format := ⟨23, 8⟩

def double : Format := ⟨52, 11⟩

/-- What a bit pattern stands for; a finite datum is `m · 2 ^ e`, negated if `neg`. -/
inductive Datum where
  | nan
  | inf (neg : Bool)
  | finite (neg : Bool) (m : Nat) (e : Int)
deriving DecidableEq, Repr

/-- The exponent of the unit in the last place of the smallest numbers. -/
def Format.minExp (f : Format) : Int := 2 - Nat.pow 2 (f.expBits - 1) - f.fracBits

/-- The pattern of positive infinity. -/
def Format.infinity (f : Format) : Nat := (Nat.pow 2 f.expBits - 1) * Nat.pow 2 f.fracBits

def Format.signBit (f : Format) : Nat := Nat.pow 2 (f.fracBits + f.expBits)

/-- The pattern used for not-a-number. -/
def Format.quietNaN (f : Format) : Nat := f.infinity + Nat.pow 2 (f.fracBits - 1)

/-- Reads a bit pattern. -/
def Format.decode (f : Format) (bits : Nat) : Datum :=
  let neg := bits / f.signBit % 2 == 1
  let exponent := bits / Nat.pow 2 f.fracBits % Nat.pow 2 f.expBits
  let fraction := bits % Nat.pow 2 f.fracBits
  if exponent == Nat.pow 2 f.expBits - 1 then
    if fraction == 0 then .inf neg else .nan
  else if exponent == 0 then .finite neg fraction f.minExp
  else .finite neg (Nat.pow 2 f.fracBits + fraction) (f.minExp + (exponent - 1 : Nat))

/-- The quotient rounded to the nearest whole number, a tie going to the even one. -/
def roundDiv (n d : Nat) : Nat :=
  let q := n / d
  let r := n % d
  if d < 2 * r || (2 * r == d && q % 2 == 1) then q + 1 else q

/-- The nearest pattern to `m · 2 ^ e`. Adding the rounded significand to the exponent field lets
a carry out of the significand raise the exponent, and a pattern past the largest finite one is
infinity. -/
def Format.round (f : Format) (neg : Bool) (m : Nat) (e : Int) : Nat :=
  let sign := if neg then f.signBit else 0
  if m == 0 then sign
  else
    let last := max f.minExp (e + (m.log2 + 1 : Nat) - (f.fracBits + 1 : Nat))
    let n :=
      if last ≤ e then m * Nat.pow 2 (e - last).toNat
      else roundDiv m (Nat.pow 2 (last - e).toNat)
    sign + min f.infinity ((last - f.minExp).toNat * Nat.pow 2 f.fracBits + n)

/-- The nearest pattern to `n / d`: enough bits of the quotient are kept, and a remainder counts
as one more bit below them, so that ties are seen as such. -/
def Format.roundQuotient (f : Format) (neg : Bool) (n d : Nat) : Nat :=
  let shift := f.fracBits + 3 + d.log2
  let q := n * Nat.pow 2 shift / d
  let sticky := if n * Nat.pow 2 shift % d == 0 then 0 else 1
  f.round neg (2 * q + sticky) (-(shift + 1 : Nat))

end ConsoleScript.Ieee
