import ConsoleScript.Text.Quoted

/-!
Signatures of commands: a letter for each parameter says how its argument is read and what stands
in for a missing one. The last letter may take all arguments, joined into one text or as they are,
and a digit repeats the letters before it while there are arguments.
-/

namespace ConsoleScript

/-- A letter of a signature. -/
inductive Letter where
  /-- An integer, by default 0. -/
  | int
  /-- An integer, by default the least one. -/
  | intOrLeast
  /-- A float, by default 0. -/
  | float
  /-- A float, by default the argument before it. -/
  | floatOrPrevious
  /-- A text; as the last letter it takes all arguments that are left. -/
  | text
  /-- A text of its own. -/
  | ownText
  /-- Any value. -/
  | any
  /-- Any value, by default null. -/
  | anyOrNull
  /-- Code. -/
  | code
  /-- Code or a value, where the empty text is null. -/
  | condition
  /-- A reference to an identifier. -/
  | ident
  /-- The command itself. -/
  | self
  /-- The number of arguments given before it. -/
  | count
  /-- The number 1. -/
  | pressed
  /-- All arguments as one text. -/
  | joined
  /-- All arguments. -/
  | all
  /-- The letters before it, this many, once more if there are arguments. -/
  | again (n : Nat)
deriving DecidableEq, Repr

namespace Letter

def ofByte? (c : UInt8) : Option Letter :=
  if c == ConsoleScript.code 'i' then some .int
  else if c == ConsoleScript.code 'b' then some .intOrLeast
  else if c == ConsoleScript.code 'f' then some .float
  else if c == ConsoleScript.code 'F' then some .floatOrPrevious
  else if c == ConsoleScript.code 's' then some .text
  else if c == ConsoleScript.code 'S' then some .ownText
  else if c == ConsoleScript.code 't' then some .any
  else if c == ConsoleScript.code 'T' then some .anyOrNull
  else if c == ConsoleScript.code 'e' then some .code
  else if c == ConsoleScript.code 'E' then some .condition
  else if c == ConsoleScript.code 'r' then some .ident
  else if c == ConsoleScript.code '$' then some .self
  else if c == ConsoleScript.code 'N' then some .count
  else if c == ConsoleScript.code 'D' then some .pressed
  else if c == ConsoleScript.code 'C' then some .joined
  else if c == ConsoleScript.code 'V' then some .all
  else if ConsoleScript.code '1' ≤ c && c ≤ ConsoleScript.code '4' then
    some (.again (c.toNat - 0x30))
  else none

def toByte : Letter → UInt8
  | .int => ConsoleScript.code 'i'
  | .intOrLeast => ConsoleScript.code 'b'
  | .float => ConsoleScript.code 'f'
  | .floatOrPrevious => ConsoleScript.code 'F'
  | .text => ConsoleScript.code 's'
  | .ownText => ConsoleScript.code 'S'
  | .any => ConsoleScript.code 't'
  | .anyOrNull => ConsoleScript.code 'T'
  | .code => ConsoleScript.code 'e'
  | .condition => ConsoleScript.code 'E'
  | .ident => ConsoleScript.code 'r'
  | .self => ConsoleScript.code '$'
  | .count => ConsoleScript.code 'N'
  | .pressed => ConsoleScript.code 'D'
  | .joined => ConsoleScript.code 'C'
  | .all => ConsoleScript.code 'V'
  | .again n => UInt8.ofNat (0x30 + n)

def takesAll : Letter → Bool
  | .joined | .all => true
  | _ => false

/-- Has an argument of its own. -/
def isSlot : Letter → Bool
  | .joined | .all | .again _ => false
  | _ => true

end Letter

/-- The letters of a command. -/
abbrev Signature := List Letter

/-- Why a signature is refused. -/
inductive SignatureError where
  | pressedNotLast
  | againMisplaced (n : Nat)
  | restNotLast (l : Letter)
  | unknownLetter (c : UInt8)
  | tooMany (n : Nat)
deriving DecidableEq, Repr

/-- Commands that do not take all arguments declare at most this many. -/
def maxDeclared : Nat := 12

def SignatureError.message (sig : Bytes) : SignatureError → Bytes
  | .pressedNotLast => utf8 "D must be the last letter of " ++ Quoted.text sig
  | .againMisplaced n =>
      utf8 "repeat " ++ Bytes.ofNat n ++ utf8 " in " ++ Quoted.text sig ++ utf8 " needs " ++
        Bytes.ofNat n ++ utf8 " preceding letters and a trailing C or V"
  | .restNotLast l => [l.toByte] ++ utf8 " must be the last letter of " ++ Quoted.text sig
  | .unknownLetter c =>
      utf8 "unknown letter " ++ Quoted.character c.toNat ++ utf8 " in " ++ Quoted.text sig
  | .tooMany n =>
      Quoted.text sig ++ utf8 " declares " ++ Bytes.ofNat n ++ utf8 " arguments, at most " ++
        Bytes.ofNat maxDeclared ++ utf8 " allowed"

namespace Signature

/-- The number of arguments a signature declares. -/
def slots (sig : Signature) : Nat := sig.countP Letter.isSlot

def toBytes (sig : Signature) : Bytes := sig.map Letter.toByte

/-- Reads the letters behind the first `seen` ones. -/
def parseFrom : (seen : Nat) → Bytes → Except SignatureError Signature
  | _, [] => .ok []
  | seen, c :: rest => do
      match Letter.ofByte? c with
      | none => .error (.unknownLetter c)
      | some l =>
          match l with
          | .pressed => if !rest.isEmpty then .error .pressedNotLast
          | .again n =>
              if seen < n || !rest.any (fun c => (Letter.ofByte? c).any Letter.takesAll) then
                .error (.againMisplaced n)
          | .joined | .all => if !rest.isEmpty then .error (.restNotLast l)
          | _ => .ok ()
          return l :: (← parseFrom (seen + 1) rest)

def parse (s : Bytes) : Except SignatureError Signature := do
  let sig ← parseFrom 0 s
  if !sig.any Letter.takesAll && maxDeclared < slots sig then .error (.tooMany (slots sig))
  else return sig

end Signature

end ConsoleScript
