import ConsoleScript.Number.Numeral
import ConsoleScript.Number.Single

/-!
Numbers at the beginning of a text. A reader takes the longest numeral it can, after blanks and an
optional sign, and reports how many bytes it took; a text that begins with no numeral counts as
zero and nothing is taken. Integers are decimal, octal after `0` and hexadecimal after `0x`.
Floats are decimal or hexadecimal, with optional fraction and exponent, or one of the words for
infinity and not-a-number.
-/

namespace ConsoleScript.Reading

/-- Digits of an integer in progress: the value modulo `2 ^ 64`, whether it ever passed that, and
how many digits were taken. -/
structure Accumulated where
  value : UInt64
  overflow : Bool
  count : Nat
deriving DecidableEq, Repr

/-- Takes digits of the base while there are any. -/
def takeDigits (base : UInt64) : Accumulated → Bytes → Accumulated
  | acc, [] => acc
  | acc, c :: s => match Byte.digitValue? c with
    | none => acc
    | some d =>
        let d := UInt64.ofNat d
        if base ≤ d then acc
        else
          takeDigits base
            ⟨acc.value * base + d, acc.overflow || acc.value > (0xFFFFFFFFFFFFFFFF - d) / base,
              acc.count + 1⟩ s

/-- The base that the beginning of a numeral asks for, and the length of its mark. -/
def baseOf : Bytes → UInt64 × Nat
  | 0x30 :: x :: c :: _ =>
      if (x == code 'x' || x == code 'X') && Byte.isHexDigit c then (16, 2) else (8, 0)
  | 0x30 :: _ => (8, 0)
  | _ => (10, 0)

/-- Whether the text begins with a minus sign, and the length of its sign. -/
def signOf : Bytes → Bool × Nat
  | c :: _ => if c == code '-' then (true, 1) else if c == code '+' then (false, 1) else (false, 0)
  | [] => (false, 0)

/-- The integer at the beginning of a text, modulo `2 ^ 64`, and the number of bytes it takes. A
value past `2 ^ 64` counts as the largest one. -/
def uint64 (s : Bytes) : UInt64 × Nat :=
  let t := s.dropWhile Byte.isSpace
  let blanks := s.length - t.length
  let (neg, sign) := signOf t
  let u := t.drop sign
  let (base, mark) := baseOf u
  let acc := takeDigits base ⟨0, false, 0⟩ (u.drop mark)
  if acc.count == 0 then (0, 0)
  else
    let v := if acc.overflow then 0xFFFFFFFFFFFFFFFF else if neg then 0 - acc.value else acc.value
    (v, blanks + sign + mark + acc.count)

/-- The integer at the beginning of a text, cut to 32 bits. -/
def int (s : Bytes) : Int32 := (uint64 s).1.toUInt32.toInt32

/-- How many bytes agree with a word in small letters, letter case aside. -/
def matchWord : (word s : Bytes) → Nat
  | w :: word, c :: s => if Byte.toLower c == w then matchWord word s + 1 else 0
  | _, _ => 0

/-- The length of a parenthesised tag after the word for not-a-number; zero unless it closes. -/
def tagLength (s : Bytes) : Nat :=
  match s with
  | c :: t =>
      if c == code '(' then
        let body := t.takeWhile fun c => Byte.isAlnum c || c == code '_'
        if Bytes.byteAt t body.length == code ')' then body.length + 2 else 0
      else 0
  | [] => 0

def floatOfNat (n : Nat) : Float := Float.ofBits (UInt64.ofNat n)

def infinity (neg : Bool) : Float :=
  floatOfNat (Ieee.double.infinity + if neg then Ieee.double.signBit else 0)

/-- The signed exponent after its letter, with the number of bytes it takes including the letter. -/
def exponentOf (letter : UInt8) (s : Bytes) : Int × Nat :=
  match s with
  | c :: t =>
      if Byte.toLower c == letter then
        let (neg, sign) := signOf t
        let digits := (t.drop sign).takeWhile Byte.isDigit
        if digits.isEmpty then (0, 0)
        else
          let e : Int := Numeral.natOf 10 digits
          (if neg then -e else e, 1 + sign + digits.length)
      else (0, 0)
  | [] => (0, 0)

/-- Digits with an optional point among them: those before it, those after it, bytes taken. -/
def mantissaOf (isDigit : UInt8 → Bool) (s : Bytes) : Bytes × Bytes × Nat :=
  let whole := s.takeWhile isDigit
  match s.drop whole.length with
  | c :: t =>
      if c == code '.' then
        let fraction := t.takeWhile isDigit
        (whole, fraction, whole.length + 1 + fraction.length)
      else (whole, [], whole.length)
  | [] => (whole, [], whole.length)

/-- Decimal exponents past this bound give infinity or zero whatever the digits. -/
def decimalRange : Int := 400

/-- The nearest double to `digits · 10 ^ e`. -/
def ofDecimal (neg : Bool) (digits : Bytes) (e : Int) : Float :=
  let digits := digits.dropWhile (· == 0x30)
  let magnitude := e + digits.length
  if digits.isEmpty || magnitude < -decimalRange then
    floatOfNat (if neg then Ieee.double.signBit else 0)
  else if decimalRange < magnitude then infinity neg
  else
    let n := Numeral.natOf 10 digits
    floatOfNat (if 0 ≤ e then Ieee.double.roundQuotient neg (n * Nat.pow 10 e.toNat) 1
      else Ieee.double.roundQuotient neg n (Nat.pow 10 (-e).toNat))

/-- Binary exponents past a bound give infinity or zero whatever the digits. -/
def capExponent (e : Int) : Int := if e < -100000 then -100000 else if 100000 < e then 100000 else e

/-- A hexadecimal float after its mark: digits are taken in one by one with the rounding of the
machine, and the exponent scales the result. -/
def hexFloat? (neg : Bool) (s : Bytes) : Option (Float × Nat) :=
  let (whole, fraction, taken) := mantissaOf Byte.isHexDigit s
  if whole.isEmpty && fraction.isEmpty then none
  else
    let mantissa : Float := (whole ++ fraction).foldl
      (fun x c => x * 16 + Float.ofNat ((Byte.digitValue? c).getD 0)) 0
    let (e, more) := exponentOf (code 'p') (s.drop taken)
    let scaled := match Ieee.double.decode mantissa.toBits.toNat with
      | .finite _ m d =>
          floatOfNat (Ieee.double.round neg m (d + capExponent e - 4 * fraction.length))
      | _ => infinity neg
    some (scaled, taken + more)

/-- The float at the beginning of an unsigned text. -/
def unsignedDouble (neg : Bool) (s : Bytes) : Option (Float × Nat) :=
  let inf := matchWord (utf8 "infinity") s
  if inf == 8 then some (infinity neg, 8)
  else if 3 ≤ inf then some (infinity neg, 3)
  else if matchWord (utf8 "nan") s == 3 then
    some (floatOfNat Ieee.double.quietNaN, 3 + tagLength (s.drop 3))
  else
    let hex := match s with
      | 0x30 :: x :: t =>
          if x == code 'x' || x == code 'X' then
            (hexFloat? neg t).map fun (v, n) => (v, n + 2)
          else none
      | _ => none
    hex <|>
      let (whole, fraction, taken) := mantissaOf Byte.isDigit s
      if whole.isEmpty && fraction.isEmpty then none
      else
        let (e, more) := exponentOf (code 'e') (s.drop taken)
        some (ofDecimal neg (whole ++ fraction) (e - fraction.length), taken + more)

/-- The float at the beginning of a text, and the number of bytes it takes. -/
def double (s : Bytes) : Float × Nat :=
  let t := s.dropWhile Byte.isSpace
  let blanks := s.length - t.length
  let (neg, sign) := signOf t
  match unsignedDouble neg (t.drop sign) with
  | some (v, n) => (v, blanks + sign + n)
  | none => (0, 0)

/-- A number in double precision. A zero directly before the letter `x` is read as an integer. -/
def number (s : Bytes) : Float :=
  let (v, n) := double s
  let next := Bytes.byteAt s n
  if v != 0 || n == 0 || !(next == code 'x' || next == code 'X') then v
  else
    let i := int s
    floatOfNat (Ieee.double.round (i < 0) i.toInt.natAbs 0)

/-- A number in single precision. -/
def single (s : Bytes) : Single := Single.ofFloat (number s)

/-- Begins like a number: a digit, or a sign or a point before one. -/
def isNumeral (s : Bytes) : Bool :=
  match s with
  | [] => false
  | c :: t =>
      let next := Bytes.byteAt t 0
      if Byte.isDigit c then true
      else if c == code '+' || c == code '-' then
        Byte.isDigit next || (next == code '.' && Byte.isDigit (Bytes.byteAt t 1))
      else c == code '.' && Byte.isDigit next

/-- A numeral that begins with zero is true if its integer is not zero, or if a fraction or an
exponent follows and the float is not zero. -/
def isTrueFromZero (s : Bytes) : Bool :=
  let (v, n) := uint64 s
  if v.toUInt32 != 0 then true
  else
    let next := Bytes.byteAt s n
    (next == code 'e' || next == code '.') && (single s).isTrue

/-- The truth of a text: false if empty or a zero in any spelling. -/
def isTrue (s : Bytes) : Bool :=
  let c := Bytes.byteAt s 0
  let next := Bytes.byteAt s 1
  if c == code '+' || c == code '-' then
    if next == code '0' then isTrueFromZero s
    else if next == code '.' then !Byte.isDigit (Bytes.byteAt s 2) || (single s).isTrue
    else true
  else if c == code '0' then isTrueFromZero s
  else if c == code '.' then !Byte.isDigit next || (single s).isTrue
  else c != 0

end ConsoleScript.Reading
