import ConsoleScript.Text.Bytes
import ConsoleScript.Number.Ieee

/-!
Decimal digits of exact dyadic values, and their layout as text. Two rules choose the digits: a
fixed number of significant digits, nearest to the value with ties to even, or the fewest digits
that read back as the same number. The layout is positional for moderate exponents and scientific,
with a sign and at least two digits in the exponent, for the others.
-/

namespace ConsoleScript

/-- The number `0.d₁d₂… · 10 ^ point`. The digits are characters, without zeros at the end, and
zero has none. -/
structure Decimal where
  digits : Bytes
  point : Int
deriving DecidableEq, Repr

namespace Decimal

/-- A positive value as a quotient of whole numbers. -/
def ratio (m : Nat) (e : Int) : Nat × Nat :=
  if 0 ≤ e then (m * Nat.pow 2 e.toNat, 1) else (m, Nat.pow 2 (-e).toNat)

/-- How often `n` is to be multiplied by ten to reach `d`. The fuel bounds the count. -/
def leadingZeros (d : Nat) : Nat → Nat → Nat
  | 0, _ => 0
  | fuel + 1, n => if d ≤ n then 0 else leadingZeros d fuel (10 * n) + 1

/-- The position of the point: `n / d` lies in `[10 ^ (p - 1), 10 ^ p)`. -/
def pointOf (n d : Nat) : Int :=
  if d ≤ n then (Bytes.ofNat (n / d)).length
  else 1 - (leadingZeros d (d.log2 + 1) n : Int)

/-- A whole number of tenths, hundredths, …: `k · 10 ^ (point - places)`. -/
def ofNat (k : Nat) (places : Nat) (point : Int) : Decimal :=
  let digits := Bytes.ofNat k
  ⟨(digits.reverse.dropWhile (· == 0x30)).reverse, point + digits.length - places⟩

def powerOfTen (p : Int) : Nat × Nat :=
  if 0 ≤ p then (Nat.pow 10 p.toNat, 1) else (1, Nat.pow 10 (-p).toNat)

/-- The value `m · 2 ^ e` to `places` significant digits. -/
def fixed (places m : Nat) (e : Int) : Decimal :=
  if m == 0 then ⟨[], 0⟩
  else
    let (n, d) := ratio m e
    let point := pointOf n d
    let (a, b) := powerOfTen (places - point)
    ofNat (Ieee.roundDiv (n * a) (d * b)) places point

/-- The numbers nearest to `m · 2 ^ e` of a format reach half a unit up and down, but only a quarter
down below a power of two; the bounds are in quarters of the unit. -/
def halfway (f : Ieee.Format) (m : Nat) (e : Int) : Nat × Nat :=
  (if m == Nat.pow 2 f.fracBits && f.minExp < e then 4 * m - 1 else 4 * m - 2, 4 * m + 2)

/-- The fewest digits that read back as `m · 2 ^ e`, of these the nearest ones. Both neighbours of
the value among the decimals of each length are tried; the last length is always enough. -/
def shortest (f : Ieee.Format) (m : Nat) (e : Int) : Decimal :=
  if m == 0 then ⟨[], 0⟩
  else
    let (lo, hi) := halfway f m e
    let (n, d) := ratio m e
    let point := pointOf n d
    let (unit, quarter) := ratio 1 (e - 2)
    let even := m % 2 == 0
    let hit (places : Nat) : Option Decimal :=
      let (a, b) := powerOfTen (places - point)
      let inside (k : Nat) : Bool :=
        let x := k * b * quarter
        let low := lo * unit * a
        let high := hi * unit * a
        (low < x && x < high) || (even && (low == x || x == high))
      let below := n * a / (d * b)
      let near := Ieee.roundDiv (n * a) (d * b)
      if inside near then some (ofNat near places point)
      else if inside below then some (ofNat below places point)
      else if inside (below + 1) then some (ofNat (below + 1) places point)
      else none
    ((List.range 17).findSome? fun k => hit (k + 1)).getD (fixed 17 m e)

/-- Positional notation with as many places as there are digits after the point. -/
def positional (x : Decimal) : Bytes :=
  let n := x.digits.length
  let whole := x.point.toNat
  let integral :=
    if x.point ≤ 0 then [0x30]
    else x.digits.take whole ++ List.replicate (whole - n) 0x30
  if n ≤ whole && 0 < x.point || n == 0 then integral
  else
    integral ++ [code '.'] ++ List.replicate (-x.point).toNat 0x30 ++ x.digits.drop whole

/-- The exponent with its sign and at least two digits. -/
def exponentText (e : Int) : Bytes :=
  [code 'e', if e < 0 then code '-' else code '+'] ++ Bytes.padLeft 0x30 2 (Bytes.ofNat e.natAbs)

/-- Scientific notation: one digit before the point. -/
def scientific (x : Decimal) : Bytes :=
  let fraction := x.digits.drop 1
  x.digits.take 1 ++ (if fraction.isEmpty then [] else code '.' :: fraction) ++
    exponentText (x.point - 1)

/-- Scientific below `10 ^ (-4)` and from `10 ^ limit` on, positional between. -/
def general (limit : Int) (x : Decimal) : Bytes :=
  if x.digits.isEmpty then [0x30]
  else if x.point - 1 < -4 || limit ≤ x.point - 1 then x.scientific
  else x.positional

end Decimal

end ConsoleScript
