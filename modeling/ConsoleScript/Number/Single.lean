import ConsoleScript.Number.Power

/-!
Single-precision numbers: the floats of the script language. A number is its bit pattern, so two
numbers are equal as data exactly when their patterns are; the comparisons that scripts make are
separate functions, under which the two zeros are equal and not-a-number is unequal to everything.
Conversions and comparisons are defined on patterns; sums, products and quotients are those of the
machine.
-/

namespace ConsoleScript

/-- A single-precision number. -/
structure Single where
  bits : UInt32
deriving DecidableEq, Repr, Inhabited

namespace Single

open Ieee (Datum)

def datum (x : Single) : Datum := Ieee.single.decode x.bits.toNat

def zero : Single := ⟨0⟩

def quietNaN : Single := ⟨UInt32.ofNat Ieee.single.quietNaN⟩

/-- The nearest number to `m · 2 ^ e`. -/
def round (neg : Bool) (m : Nat) (e : Int) : Single :=
  ⟨UInt32.ofNat (Ieee.single.round neg m e)⟩

def ofDatum : Datum → Single
  | .nan => quietNaN
  | .inf neg => ⟨UInt32.ofNat (Ieee.single.infinity + if neg then Ieee.single.signBit else 0)⟩
  | .finite neg m e => round neg m e

def isNaN (x : Single) : Bool := (x.bits &&& 0x7FFFFFFF) > 0x7F800000

/-- The nearest number to an integer. -/
def ofInt32 (i : Int32) : Single := round (i < 0) i.toInt.natAbs 0

/-- A whole number of 32 bits, or its least value if there is none. -/
def clipInt32 (n : Int) : Int32 :=
  if Int32.minValue.toInt ≤ n && n ≤ Int32.maxValue.toInt then Int32.ofInt n else Int32.minValue

/-- The integer part, or the least integer if the number has none in range. -/
def toInt32 (x : Single) : Int32 :=
  match x.datum with
  | .finite neg m e =>
      let n := if 0 ≤ e then m * Nat.pow 2 e.toNat else m / Nat.pow 2 (-e).toNat
      clipInt32 (if neg then -(n : Int) else n)
  | _ => Int32.minValue

/-- The nearest single-precision number. -/
def ofFloat (x : Float) : Single := ofDatum (Ieee.double.decode x.toBits.toNat)

/-- The same number in double precision. -/
def toFloat (x : Single) : Float :=
  match x.datum with
  | .nan => Float.ofBits (UInt64.ofNat Ieee.double.quietNaN)
  | .inf neg =>
      Float.ofBits (UInt64.ofNat (Ieee.double.infinity + if neg then Ieee.double.signBit else 0))
  | .finite neg m e => Float.ofBits (UInt64.ofNat (Ieee.double.round neg m e))

/-- Orders the numbers by value; the two zeros have one key. -/
def key (x : Single) : Int :=
  let magnitude := (x.bits &&& 0x7FFFFFFF).toNat
  if x.bits < 0x80000000 then magnitude else -magnitude

def eq (x y : Single) : Bool := !x.isNaN && !y.isNaN && x.key == y.key

def lt (x y : Single) : Bool := !x.isNaN && !y.isNaN && x.key < y.key

def le (x y : Single) : Bool := !x.isNaN && !y.isNaN && x.key ≤ y.key

/-- Unequal to zero; not-a-number is. -/
def isTrue (x : Single) : Bool := !x.eq zero

def neg (x : Single) : Single := ⟨x.bits ^^^ 0x80000000⟩

def abs (x : Single) : Single := ⟨x.bits &&& 0x7FFFFFFF⟩

/-- Applies an operation of the machine. -/
def lift (op : Float32 → Float32 → Float32) (x y : Single) : Single :=
  ⟨(op (Float32.ofBits x.bits) (Float32.ofBits y.bits)).toBits⟩

def add : Single → Single → Single := lift (· + ·)

def sub : Single → Single → Single := lift (· - ·)

def mul : Single → Single → Single := lift (· * ·)

def div : Single → Single → Single := lift (· / ·)

/-- The remainder of the division with the quotient cut toward zero; it has the sign of `x`. -/
def rem (x y : Single) : Single :=
  match x.datum, y.datum with
  | .nan, _ | _, .nan | .inf _, _ => quietNaN
  | .finite .., .inf _ => x
  | .finite neg m e, .finite _ n d =>
      if n == 0 then quietNaN
      else
        let low := min e d
        round neg (m * Nat.pow 2 (e - low).toNat % (n * Nat.pow 2 (d - low).toNat)) low

/-- The power, computed in double precision. -/
def pow (x y : Single) : Single := ofFloat (Power.float x.toFloat y.toFloat)

end Single

end ConsoleScript
