import ConsoleScript.Number.Reading
import ConsoleScript.Settings.Toml
import ConsoleScript.Text.Utf8

/-!
Reading strings, numbers and dates of a settings document. Each reader takes what is left of the
text and gives a value with the rest, or nothing if the text is malformed there.
-/

namespace ConsoleScript.Toml

/-- A reader of a part of a text. -/
abbrev Reader (α : Type) := Bytes → Option (α × Bytes)

/-- Control characters other than the tab, which no string or comment may hold. -/
def isControl (c : UInt8) : Bool := (c < 0x20 && c != 0x09) || c == 0x7F

def isBlank (c : UInt8) : Bool := c == 0x20 || c == 0x09

def skipBlanks (s : Bytes) : Bytes := s.dropWhile isBlank

/-- What follows a line break at the beginning of a text. -/
def lineBreak? : Bytes → Option Bytes
  | 0x0A :: s => some s
  | 0x0D :: 0x0A :: s => some s
  | _ => none

/-- What follows a line break, or the whole text if there is none. -/
def dropLineBreak (s : Bytes) : Bytes := (lineBreak? s).getD s

/-- A number of hexadecimal digits. -/
def hexDigits : Nat → Nat → Reader Nat
  | 0, n, s => some (n, s)
  | _ + 1, _, [] => none
  | k + 1, n, c :: s => (Byte.digitValue? c).bind fun d => hexDigits k (n * 16 + d) s

/-- A character by its number in hexadecimal. -/
def numbered (digits : Nat) (s : Bytes) : Option (Bytes × Bytes) := do
  let (n, rest) ← hexDigits digits 0 s
  if n < 0xD800 || (0xE000 ≤ n && n < 0x110000) then some (Utf8.encode n, rest) else none

/-- What a backslash and the text behind it stand for. -/
def escaped : Reader Bytes
  | [] => none
  | c :: s =>
      if c == code 'b' then some ([0x08], s)
      else if c == code 't' then some ([0x09], s)
      else if c == code 'n' then some ([0x0A], s)
      else if c == code 'f' then some ([0x0C], s)
      else if c == code 'r' then some ([0x0D], s)
      else if c == code 'e' then some ([0x1B], s)
      else if c == 0x22 then some ([0x22], s)
      else if c == 0x5C then some ([0x5C], s)
      else if c == code 'x' then numbered 2 s
      else if c == code 'u' then numbered 4 s
      else if c == code 'U' then numbered 8 s
      else none

/-- The rest of a string on one line up to its closing quote; a literal string has no escapes. -/
def lineString (quote : UInt8) (literal : Bool) : (fuel : Nat) → Reader Bytes
  | 0, _ => none
  | _, [] => none
  | fuel + 1, c :: s =>
      if c == quote then some ([], s)
      else if isControl c then none
      else if c == 0x5C && !literal then do
        let (e, s) ← escaped s
        let (t, s) ← lineString quote literal fuel s
        return (e ++ t, s)
      else do
        let (t, s) ← lineString quote literal fuel s
        return (c :: t, s)

/-- Blanks and line breaks behind a backslash at the end of a line. -/
def dropFolded : (fuel : Nat) → Bytes → Bytes
  | 0, s => s
  | fuel + 1, s => match lineBreak? (skipBlanks s) with
    | some rest => dropFolded fuel rest
    | none => skipBlanks s

/-- How many quotes may close a string over several lines: three, and two more of the string
itself. Behind an escaped backslash there may be another one. -/
def mostQuotes (afterBackslash : Bool) : Nat := if afterBackslash then 6 else 5

/-- The rest of a string over several lines up to its closing quotes. Line breaks stay as they are
written. -/
def longString (quote : UInt8) (literal : Bool) :
    (fuel : Nat) → (afterBackslash : Bool) → Reader Bytes
  | 0, _, _ => none
  | _, _, [] => none
  | fuel + 1, afterBackslash, c :: s =>
      let quotes := ((c :: s).takeWhile (· == quote)).length
      if 3 ≤ quotes then
        if quotes ≤ mostQuotes afterBackslash then
          some (List.replicate (quotes - 3) quote, s.drop (quotes - 1))
        else none
      else if c == 0x5C && !literal then
        if (lineBreak? (skipBlanks s)).isSome then
          longString quote literal fuel false (dropFolded fuel s)
        else do
          let (e, s) ← escaped s
          let (t, s) ← longString quote literal fuel (e == [0x5C]) s
          return (e ++ t, s)
      else if isControl c && (lineBreak? (c :: s)).isNone then none
      else if c == 0x0D then do
        let (t, s) ← longString quote literal fuel false (s.drop 1)
        return (0x0D :: 0x0A :: t, s)
      else do
        let (t, s) ← longString quote literal fuel false s
        return (c :: t, s)

/-- A string behind its first quote. -/
def quoted (quote : UInt8) (long : Bool) (s : Bytes) : Option (Bytes × Bytes) :=
  let literal := quote == 0x27
  match long, s with
  | true, a :: b :: rest =>
      if a == quote && b == quote then
        longString quote literal (rest.length + 1) false (dropLineBreak rest)
      else lineString quote literal (s.length + 1) s
  | _, s => lineString quote literal (s.length + 1) s

/-- The whole numbers that a document may hold have 64 bits. -/
def inRange (i : Int) : Option Term :=
  if -9223372036854775808 ≤ i && i ≤ 9223372036854775807 then some (.int i) else none

def basedInt? (base : Nat) (digits : Bytes) : Option Term := do
  let ds ← Numeral.digits? base false digits
  inRange (Numeral.natOf base ds)

def splitSign : Bytes → Bool × Bytes
  | c :: s =>
      if c == code '-' then (true, s) else if c == code '+' then (false, s) else (false, c :: s)
  | [] => (false, [])

/-- Decimal digits without a needless zero at the front. -/
def decimal? (s : Bytes) : Option Bytes := do
  let ds ← Numeral.digits? 10 false s
  if 1 < ds.length && ds.head? == some 0x30 then none else some ds

/-- The exponent of a number behind its letter; without a letter it is zero. -/
def exponent? : Bytes → Option Int
  | [] => some 0
  | c :: s =>
      if c == code 'e' || c == code 'E' then
        let (neg, digits) := splitSign s
        (Numeral.digits? 10 false digits).map fun ds =>
          if neg then -(Numeral.natOf 10 ds : Int) else Numeral.natOf 10 ds
      else none

/-- Whether a word without its sign is a number with a fraction or an exponent that a double can
hold, if only as zero. -/
def isFloat (s : Bytes) : Bool :=
  let isDigits (c : UInt8) : Bool := Byte.isDigit c || c == code '_'
  let whole := s.takeWhile isDigits
  let parts : Option Float := do
    let ds ← decimal? whole
    match s.drop whole.length with
    | [] => none
    | 0x2E :: t =>
        let fraction := t.takeWhile isDigits
        let fs ← Numeral.digits? 10 false fraction
        let e ← exponent? (t.drop fraction.length)
        return Reading.ofDecimal false (ds ++ fs) (e - fs.length)
    | t => return Reading.ofDecimal false ds (← exponent? t)
  parts.any fun x => !x.isInf

/-- A number by its word. -/
def number? (word : Bytes) : Option Term :=
  let (neg, s) := splitSign word
  let isSigned := s.length != word.length
  match s with
  | 0x30 :: 0x78 :: digits => if isSigned then none else basedInt? 16 digits
  | 0x30 :: 0x6F :: digits => if isSigned then none else basedInt? 8 digits
  | 0x30 :: 0x62 :: digits => if isSigned then none else basedInt? 2 digits
  | s =>
      if s == utf8 "inf" || s == utf8 "nan" || isFloat s then some .float
      else do
        let ds ← decimal? s
        inRange (if neg then -(Numeral.natOf 10 ds : Int) else Numeral.natOf 10 ds)

/-- A fixed number of digits, as a number in a range. -/
def digitsIn (count least greatest : Nat) : Reader Nat := fun s =>
  let ds := s.take count
  let n := Numeral.natOf 10 ds
  if ds.length == count && ds.all Byte.isDigit && least ≤ n && n ≤ greatest then
    some (n, s.drop count)
  else none

def mark (c : Char) : Bytes → Option Bytes
  | d :: s => if d == code c then some s else none
  | [] => none

/-- The days of a month. -/
def daysIn (year month : Nat) : Nat :=
  if month == 2 then
    if year % 4 == 0 && (year % 100 != 0 || year % 400 == 0) then 29 else 28
  else if month == 4 || month == 6 || month == 9 || month == 11 then 30
  else 31

/-- What follows a date. -/
def date? (s : Bytes) : Option Bytes := do
  let (year, s) ← digitsIn 4 0 9999 s
  let (month, s) ← digitsIn 2 1 12 (← mark '-' s)
  let (_, s) ← digitsIn 2 1 (daysIn year month) (← mark '-' s)
  return s

/-- What follows a time of day; seconds and their fraction may be left out. -/
def time? (s : Bytes) : Option Bytes := do
  let (_, s) ← digitsIn 2 0 23 s
  let (_, s) ← digitsIn 2 0 59 (← mark ':' s)
  match mark ':' s with
  | none => return s
  | some s =>
      let (_, s) ← digitsIn 2 0 59 s
      match mark '.' s with
      | none => return s
      | some s =>
          let fraction := s.takeWhile Byte.isDigit
          if fraction.isEmpty then none else return s.drop fraction.length

/-- Whether a text is the offset of a time zone, or nothing. An offset may be a whole day, and its
minutes a whole hour. -/
def isOffset (s : Bytes) : Bool := match s with
  | [] => true
  | [c] => c == code 'Z' || c == code 'z'
  | c :: t => (c == code '+' || c == code '-') && ((do
      let (_, t) ← digitsIn 2 0 24 t
      let (_, t) ← digitsIn 2 0 60 (← mark ':' t)
      return t : Option Bytes) == some [])

/-- Whether a word is a date, a time of day, or both. -/
def isMoment (word : Bytes) : Bool :=
  match date? word with
  | none => time? word == some []
  | some [] => true
  | some (c :: s) =>
      (c == code 'T' || c == code 't' || c == 0x20) && (time? s).any isOffset

/-- The value of a word without quotes. -/
def word? (word : Bytes) : Option Term :=
  if word == utf8 "true" then some (.bool true)
  else if word == utf8 "false" then some (.bool false)
  else if isMoment word then some .moment
  else number? word

end ConsoleScript.Toml
