import ConsoleScript.Text.Quoted

/-!
Where an archive is. Its location is a path that may have parameters behind a question mark:
assignments between ampersands, in which bytes may be written as a percent sign and two hexadecimal
digits. The parameters change nothing here, but they have to be well-formed. The path itself ends
before a zero byte.
-/

namespace ConsoleScript

/-- Why the parameters of a location are refused. -/
inductive ParameterError where
  | semicolon
  /-- A percent sign without two digits, and at most two bytes behind it. -/
  | badEscape (found : Bytes)
deriving DecidableEq, Repr

def ParameterError.message : ParameterError → Bytes
  | .semicolon => utf8 "invalid semicolon separator in query"
  | .badEscape found => utf8 "invalid URL escape " ++ Quoted.text found

namespace Location

/-- The path of a location. -/
def plain (s : Bytes) : Bytes := (s.takeWhile (· != code '?')).takeWhile (· != 0)

/-- The texts between ampersands. -/
def assignments : Bytes → List Bytes
  | [] => [[]]
  | c :: s =>
      if c == code '&' then [] :: assignments s
      else match assignments s with
        | [] => [[c]]
        | a :: rest => (c :: a) :: rest

/-- The first percent sign that has no two digits behind it. -/
def badEscape? : Bytes → Option ParameterError
  | [] => none
  | c :: s =>
      if c != code '%' then badEscape? s
      else match s with
        | a :: b :: _ =>
            if Byte.isHexDigit a && Byte.isHexDigit b then badEscape? s
            else some (.badEscape [c, a, b])
        | _ => some (.badEscape (c :: s))

/-- What is wrong with the parameters, if anything: a semicolon is reported before an escape. -/
def parameterError? (s : Bytes) : Option ParameterError :=
  if s.contains (code ';') then some .semicolon
  else (assignments s).findSome? fun a =>
    badEscape? (a.takeWhile (· != code '=')) <|>
      badEscape? ((a.dropWhile (· != code '=')).drop 1)

/-- The path of a location with well-formed parameters. -/
def file (s : Bytes) : Except ParameterError Bytes :=
  match parameterError? ((s.dropWhile (· != code '?')).drop 1) with
  | some e => .error e
  | none => .ok (plain s)

end Location

end ConsoleScript
