import ConsoleScript.Text.Printable

/-!
Quoted form of byte texts in messages and listings: between double quotes, with a backslash before
a double quote and a backslash, the short escapes for the seven control characters that have one,
hexadecimal escapes for other bytes that are not printable, and printable characters as they are.
A single byte is quoted as a character between single quotes.
-/

namespace ConsoleScript.Quoted

/-- Hexadecimal digits in small letters, most significant first. -/
def hexDigits (width n : Nat) : Bytes :=
  (List.range width).reverse.map fun k => Bytes.digit false (n / Nat.pow 16 k % 16)

/-- The letter of a control character that has a short escape. -/
def shortEscape? (c : Nat) : Option Char :=
  match c with
  | 0x07 => some 'a'
  | 0x08 => some 'b'
  | 0x0C => some 'f'
  | 0x0A => some 'n'
  | 0x0D => some 'r'
  | 0x09 => some 't'
  | 0x0B => some 'v'
  | _ => none

/-- A unit of the text inside quotes of the kind `quote`. -/
def unit (quote : Nat) : Utf8.Rune → Bytes
  | .stray b => utf8 "\\x" ++ hexDigits 2 b.toNat
  | .point c =>
      if c == quote || c == 0x5C then [0x5C, UInt8.ofNat c]
      else if Utf8.isPrintable c then Utf8.encode c
      else match shortEscape? c with
        | some e => [0x5C, code e]
        | none =>
            if c < 0x20 || c == 0x7F then utf8 "\\x" ++ hexDigits 2 c
            else if c < 0x10000 then utf8 "\\u" ++ hexDigits 4 c
            else utf8 "\\U" ++ hexDigits 8 c

/-- A text between double quotes. -/
def text (s : Bytes) : Bytes :=
  [0x22] ++ (Utf8.runes s).flatMap (unit 0x22) ++ [0x22]

/-- A code point between single quotes. -/
def character (c : Nat) : Bytes := [0x27] ++ unit 0x27 (.point c) ++ [0x27]

end ConsoleScript.Quoted
