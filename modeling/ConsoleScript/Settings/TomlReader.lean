import ConsoleScript.Settings.TomlDraft
import ConsoleScript.Settings.TomlText

/-!
Reading a settings document: lines that are empty or hold a statement, each with a comment behind
it. Arrays and tables in braces may go over several lines.
-/

namespace ConsoleScript.Toml

/-- A comment up to the end of its line; nothing if it holds a control character. -/
def comment? : Bytes → Option Bytes
  | [] => some []
  | c :: s =>
      if (lineBreak? (c :: s)).isSome then some (c :: s)
      else if isControl c then none
      else comment? s

/-- Passes over blanks, line breaks and comments. -/
def skipLines : (fuel : Nat) → Bytes → Option Bytes
  | 0, s => some s
  | fuel + 1, s =>
      let s := skipBlanks s
      match lineBreak? s, s with
      | some rest, _ => skipLines fuel rest
      | none, 0x23 :: rest => (comment? rest).bind (skipLines fuel)
      | none, s => some s

/-- Passes over what may follow a value or header on its line, and the end of the line. -/
def endLine (s : Bytes) : Option Bytes := do
  let s ← match skipBlanks s with
    | 0x23 :: rest => comment? rest
    | s => some s
  if s.isEmpty then some [] else lineBreak? s

def isBareKey (c : UInt8) : Bool := Byte.isAlnum c || c == code '_' || c == code '-'

/-- A key without dots. -/
def simpleKey : Reader Bytes
  | [] => none
  | c :: s =>
      if c == 0x22 || c == 0x27 then quoted c false s
      else
        let key := (c :: s).takeWhile isBareKey
        if key.isEmpty then none else some (key, (c :: s).drop key.length)

/-- A key with dots between its parts. -/
def dottedKey : (fuel : Nat) → Reader Key
  | 0, _ => none
  | fuel + 1, s => do
      let (key, s) ← simpleKey (skipBlanks s)
      match skipBlanks s with
      | 0x2E :: rest =>
          let (keys, s) ← dottedKey fuel rest
          return (key :: keys, s)
      | s => return ([key], s)

def isWord (c : UInt8) : Bool :=
  Byte.isAlnum c || c == code '+' || c == code '-' || c == code '_' || c == code '.' ||
    c == code ':'

/-- A word; between a date and a time there may be a blank. -/
def takeWord (s : Bytes) : Bytes × Bytes :=
  let word := s.takeWhile isWord
  let rest := s.drop word.length
  match rest with
  | 0x20 :: c :: t =>
      if Byte.isDigit c && date? word == some [] then
        let time := (c :: t).takeWhile isWord
        (word ++ [0x20] ++ time, (c :: t).drop time.length)
      else (word, rest)
  | rest => (word, rest)

/-- The items of a list up to its closing bracket. The separator may follow the last item. -/
def items {α : Type} (item : Reader α) (closing : UInt8) : (fuel : Nat) → Reader (List α)
  | 0, _ => none
  | fuel + 1, s => do
      let s ← skipLines (s.length + 1) s
      match s with
      | [] => none
      | c :: rest =>
          if c == closing then return ([], rest)
          else
            let (v, s) ← item (c :: rest)
            match ← skipLines (s.length + 1) s with
            | [] => none
            | d :: rest =>
                if d == closing then return ([v], rest)
                else if d == code ',' then
                  let (vs, s) ← items item closing fuel rest
                  return (v :: vs, s)
                else none

/-- A key and its value. -/
def pair (term : Reader Term) (s : Bytes) : Option ((Key × Term) × Bytes) := do
  let (key, s) ← dottedKey (s.length + 1) s
  let s ← mark '=' (skipBlanks s)
  let (t, s) ← term (skipBlanks s)
  return ((key, t), s)

/-- A value; arrays and tables nest up to a number of levels. -/
def term : (levels : Nat) → Reader Term
  | 0, _ => none
  | _, [] => none
  | levels + 1, c :: s =>
      if c == 0x22 || c == 0x27 then (quoted c true s).map fun (t, s) => (.text t, s)
      else if c == code '[' then
        (items (term levels) (code ']') (s.length + 1) s).map fun (ts, s) => (.array ts, s)
      else if c == 0x7B then
        (items (pair (term levels)) 0x7D (s.length + 1) s).map fun (fs, s) => (.table fs, s)
      else do
        let (word, s) := takeWord (c :: s)
        return (← word? word, s)

/-- A header behind its opening brackets. -/
def headerKey (closing : Bytes) (s : Bytes) : Option (Key × Bytes) := do
  let (key, s) ← dottedKey (s.length + 1) s
  return (key, ← Bytes.dropPrefix? closing s)

def statement : Reader Statement
  | 0x5B :: 0x5B :: s => (headerKey [0x5D, 0x5D] s).map fun (key, s) => (.tables key, s)
  | 0x5B :: s => (headerKey [0x5D] s).map fun (key, s) => (.table key, s)
  | s => (pair (term (s.length + 1)) s).map fun ((key, t), s) => (.assign key t, s)

/-- The statements of a text, each on a line of its own. -/
def statements : (fuel : Nat) → Bytes → Option (List Statement)
  | 0, _ => none
  | fuel + 1, s => do
      match ← skipLines (s.length + 1) s with
      | [] => return []
      | s =>
          let (st, s) ← statement s
          return st :: (← statements fuel (← endLine s))

/-- The marks of a byte order that a text may begin with. -/
def byteOrderMarks : List Bytes := [[0xFF, 0xFE], [0xFE, 0xFF], [0xEF, 0xBB, 0xBF]]

def read? (s : Bytes) : Option Entries :=
  let s := (byteOrderMarks.findSome? (Bytes.dropPrefix? · s)).getD s
  if Utf8.isValid s then (statements (s.length + 1) s).bind ofStatements? else none

end ConsoleScript.Toml
