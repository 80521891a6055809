import ConsoleScript.Number.Ieee

/-!
Powers in double precision. The whole part of the exponent is taken by repeated squaring, the rest,
which is at most one half, by the exponential function. The significand and the binary exponent are
kept apart on the way, so that only the last step can leave the range.
-/

namespace ConsoleScript.Power

/-- A number as a product of a double and a power of two. -/
structure Scaled where
  significand : Float
  exponent : Int

/-- Past these binary exponents the power is zero or infinite. -/
def exponentRange : Int := 4096

/-- The square, with a significand of at least one half. -/
def Scaled.square (x : Scaled) : Scaled :=
  let s := x.significand * x.significand
  if s < 0.5 then ⟨s + s, 2 * x.exponent - 1⟩ else ⟨s, 2 * x.exponent⟩

/-- Multiplies `acc` by the power of `x` with a whole exponent; the fuel bounds its bits. -/
def timesPower : (fuel : Nat) → (acc x : Scaled) → Nat → Scaled
  | 0, acc, _, _ => acc
  | fuel + 1, acc, x, n =>
      if n == 0 then acc
      else if x.exponent < -exponentRange || exponentRange < x.exponent then
        ⟨acc.significand, acc.exponent + x.exponent⟩
      else
        let acc := if n % 2 == 1 then
            ⟨acc.significand * x.significand, acc.exponent + x.exponent⟩
          else acc
        timesPower fuel acc x.square (n / 2)

/-- The nearest double. -/
def Scaled.toFloat (x : Scaled) : Float :=
  match Ieee.double.decode x.significand.toBits.toNat with
  | .finite neg m e => Float.ofBits (UInt64.ofNat (Ieee.double.round neg m (e + x.exponent)))
  | _ => x.significand

/-- The whole part of a number that is not negative. -/
def wholePart (m : Nat) (e : Int) : Nat :=
  if 0 ≤ e then m * Nat.pow 2 e.toNat else m / Nat.pow 2 (-e).toNat

/-- The significand of a number that is not zero, at least one half and below one. -/
def normalized (neg : Bool) (m : Nat) (e : Int) : Scaled :=
  let bits : Int := m.log2 + 1
  ⟨Float.ofBits (UInt64.ofNat (Ieee.double.round neg m (-bits))), e + bits⟩

/-- The power of a number that is neither zero nor infinite, with an exponent `y` of size
`n · 2 ^ d`, neither zero nor infinite. A fraction above one half counts down from the next whole
exponent. -/
def finite (x : Float) (start : Scaled) (y : Float) (n : Nat) (d : Int) : Float :=
  let whole := wholePart n d
  let size := y.abs
  let fraction := size - Float.ofBits (UInt64.ofNat (Ieee.double.round false whole 0))
  if fraction != 0 && x < 0 then Float.ofBits (UInt64.ofNat Ieee.double.quietNaN)
  else
    let (whole, fraction) := if fraction > 0.5 then (whole + 1, fraction - 1) else (whole, fraction)
    let first := if fraction == 0 then 1 else (fraction * x.log).exp
    let p := timesPower 64 ⟨first, 0⟩ start whole
    if y < 0 then Scaled.toFloat ⟨1 / p.significand, -p.exponent⟩ else p.toFloat

/-- Exponents of this size, which are whole and even, are left to the library's function. -/
def wholeLimit : Nat := Nat.pow 2 63

/-- The power. Square roots are taken as such, and zeros, infinities, not-a-numbers and huge
exponents have the values that the standard gives them. -/
def float (x y : Float) : Float :=
  match Ieee.double.decode x.toBits.toNat, Ieee.double.decode y.toBits.toNat with
  | .finite neg m e, .finite _ n d =>
      if m == 0 || n == 0 || x == 1 || y == 1 || wholeLimit ≤ wholePart n d then x.pow y
      else if y == 0.5 then x.sqrt
      else if y == -0.5 then 1 / x.sqrt
      else finite x (normalized neg m e) y n d
  | _, _ => x.pow y

end ConsoleScript.Power
