import ConsoleScript.Compile.Basic

/-!
Statements. A statement is an assignment, a call, a control construct, or a variable with or without
a value; what is left on its line is read and dropped. Statements end at a semicolon, a line feed,
or the closing bracket of the text that holds them.
-/

namespace ConsoleScript.Compile

open Bytecode

/-- The code of a statement, and whether arguments may be left on its line. -/
abbrev Statement := Code × Bool

/-- Arguments one after another, `left` at most, where `given` are there already: their code, the
number there is now, and whether more may follow. -/
def takeArgs (k : Nested) (want : Want) (prev : Nat) :
    (left given : Nat) → CompileM (Code × Nat × Bool)
  | 0, given => return ([], given, true)
  | left + 1, given => do
      match ← k.arg want (prev + given) with
      | none => return ([], given, false)
      | some code =>
          let (more, n, open') ← takeArgs k want prev left (given + 1)
          return (code ++ more, n, open')

/-- One argument, or the code that stands in for it. -/
def argOr (k : Nested) (want : Want) (prev : Nat) (missing : Code) : CompileM Statement := do
  match ← k.arg want prev with
  | some code => return (code, true)
  | none => return (missing, false)

/-- Reads and drops arguments; the fuel bounds their number. -/
def dropArgs (k : Nested) (prev : Nat) : (fuel : Nat) → CompileM Code
  | 0 => return []
  | fuel + 1 => do
      match ← k.arg .nothing prev with
      | none => return []
      | some code => return code ++ (← dropArgs k prev fuel)

/-- Reads and drops what is left on the line, if there may be more. -/
def surplusArgs (k : Nested) (more : Bool) (prev : Nat) : CompileM Code := do
  if more then dropArgs k prev ((← cursor).rest.length + 1) else return []

/-- An assignment behind its sign. -/
def assignment (k : Nested) (head : Head) (prev : Nat) : CompileM Statement := do
  let byName (push : Code) : CompileM Statement := do
    let (value, more) ← argOr k .any (prev + 1) (textCode [])
    return (push ++ value ++ plain .aliasNamed, more)
  match head with
  | .computed push => byName push
  | .bare name =>
      let i ← intern name
      match ← roleOf i with
      | .alias =>
          let (value, more) ← argOr k .any prev (textCode [])
          return (value ++ plain (if i < maxArgs then .aliasArg else .alias) .null i, more)
      | .intVar .. =>
          let (value, more) ← argOr k .int prev (intCode 0)
          return (value ++ plain .setIntVar .null i, more)
      | .floatVar .. =>
          let (value, more) ← argOr k .float prev (floatCode Single.zero)
          return (value ++ plain .setFloatVar .null i, more)
      | .textVar .. =>
          let (value, more) ← argOr k .textView prev (textCode [])
          return (value ++ plain .setTextVar .null i, more)
      | _ => byName (viewCode name)

def callComputed (k : Nested) (push : Code) (prev : Nat) : CompileM Statement := do
  let (args, n, more) ← takeArgs k .anyView (prev + 1) maxArgs 0
  return (push ++ args ++ plain .callNamed .null n, more)

/-- What stands in for a missing argument of a letter; `given` counts the arguments before it. -/
def missingArg (letter : Letter) (given : Nat) : Code :=
  match letter with
  | .int => intCode 0
  | .intOrLeast => intCode Int32.minValue
  | .float => floatCode Single.zero
  | .floatOrPrevious => floatAgain given
  | .text => viewCode []
  | .ownText => textCode []
  | .any | .anyOrNull | .condition => nullCode
  | .code => literal []
  | .ident => dummyCode
  | _ => []

/-- What an argument of a letter is compiled for. -/
def wantOf : Letter → Want
  | .int | .intOrLeast => .int
  | .float | .floatOrPrevious => .float
  | .text => .textView
  | .ownText => .text
  | .condition => .condition
  | .code => .code
  | .ident => .ident
  | _ => .anyView

/-- A command call in progress. -/
structure CallState where
  code : Code := []
  /-- Arguments on the stack. -/
  given : Nat := 0
  /-- Those of them that stand in for missing ones. -/
  absent : Nat := 0
  /-- More arguments may follow. -/
  more : Bool := true
  /-- The letters are being repeated. -/
  again : Bool := false
  op : Op := .com

/-- One argument, if there may be more. -/
def argIfMore (k : Nested) (want : Want) (prev : Nat) (more : Bool) : CompileM (Option Code) :=
  if more then k.arg want prev else return none

/-- The arguments that are left, if there may be more. -/
def restOfArgs (k : Nested) (prev given : Nat) (more : Bool) : CompileM (Code × Nat × Bool) :=
  if more then takeArgs k .anyView prev (maxArgs - given) given else return ([], given, false)

/-- The argument of a letter that takes a value, or what stands in for it. A text that is the last
letter takes all arguments that are left. -/
def letterArg (k : Nested) (letter : Letter) (isLast : Bool) (prev : Nat) (st : CallState) :
    CompileM CallState := do
  match ← argIfMore k (wantOf letter) (prev + st.given) st.more with
  | none =>
      if st.again then return { st with more := false }
      else
        return { st with
          code := st.code ++ missingArg letter st.given
          given := st.given + 1
          absent := st.absent + 1
          more := false }
  | some code =>
      if letter = .text && isLast then
        let (rest, n, more) ← takeArgs k .textView (prev + st.given) (maxArgs - (st.given + 1)) 1
        let join := if 1 < n then plain .conc .text n else []
        return { st with
          code := st.code ++ code ++ rest ++ join
          given := st.given + 1
          more := more }
      else return { st with code := st.code ++ code, given := st.given + 1 }

/-- The arguments of a command by the letters from `at'` on. A digit goes back over the letters it
repeats while there are arguments; the fuel bounds the letters that are read. -/
def commandArgs (k : Nested) (sig : Array Letter) (self prev : Nat) :
    (fuel at' : Nat) → CallState → CompileM Statement
  | 0, _, st => return (st.code, st.more)
  | fuel + 1, at', st => do
      match sig[at']? with
      | none => return (st.code ++ plain st.op .null self, st.more)
      | some letter =>
          let go (st : CallState) := commandArgs k sig self prev fuel (at' + 1) st
          match letter with
          | .self => go { st with code := st.code ++ identCode self, given := st.given + 1 }
          | .count =>
              let n := Int32.ofInt ((st.given : Int) - st.absent)
              go { st with code := st.code ++ intCode n, given := st.given + 1 }
          | .pressed => go { st with op := .comPressed, given := st.given + 1 }
          | .joined | .all => do
              let (args, n, more) ← restOfArgs k prev st.given st.more
              let op := if letter = .joined then .comJoined else .comAll
              return (st.code ++ args ++ [.instr (.call op .null n self)], more)
          | .again n =>
              if st.more && st.given < maxArgs then
                commandArgs k sig self prev fuel (at' - n) { st with again := true }
              else
                let surplus := st.given - maxArgs
                let pops := (List.replicate surplus (plain .pop)).flatten
                go { st with code := st.code ++ pops, given := st.given - surplus }
          | letter => go (← letterArg k letter (at' + 1 == sig.size) prev st)

/-- The branch on a condition. Branches that are block literals become jumps. -/
def branch (k : Nested) (self prev : Nat) : CompileM Statement := do
  match ← k.arg .anyView prev with
  | none => return (plain .null, false)
  | some cond =>
      match ← k.arg .code (prev + 1) with
      | none => return (cond ++ plain .pop ++ plain .null, false)
      | some yes =>
          match ← k.arg .code (prev + 2) with
          | none =>
              match literalBody? yes with
              | some body => return (cond ++ [.whenTrue body], false)
              | none => return (cond ++ yes ++ literal [] ++ plain .com .null self, false)
          | some no =>
              let called := cond ++ yes ++ no ++ plain .com .null self
              match literalBody? yes, literalBody? no with
              | some yes, some no => return (cond ++ [.choice yes no], true)
              | none, some no =>
                  return (if isEmptyLiteral yes then cond ++ [.whenFalse no] else called, true)
              | _, none => return (called, true)

/-- Operands while they are block literals: their bodies, an operand that is none with its code,
the number of operands, and whether more may follow. -/
def takeLiterals (k : Nested) (prev : Nat) :
    (left given : Nat) → CompileM (List Code × Option Code × Nat × Bool)
  | 0, given => return ([], none, given, true)
  | left + 1, given => do
      match ← k.arg .condition (prev + given) with
      | none => return ([], none, given, false)
      | some code =>
          match literalBody? code with
          | none => return ([], some code, given + 1, true)
          | some body =>
              let (bodies, other, n, more) ← takeLiterals k prev left (given + 1)
              return (body :: bodies, other, n, more)

/-- The conjunction or disjunction. If all operands behind the first are block literals, they are
run in place. -/
def connective (k : Nested) (isAnd : Bool) (self prev : Nat) : CompileM Statement := do
  match ← k.arg .condition prev with
  | none => return (plain (if isAnd then .yes else .no), false)
  | some first =>
      let (bodies, other, n, more) ← takeLiterals k prev (maxArgs - 1) 1
      if more then
        let (rest, n, more) ← takeArgs k .condition prev (maxArgs - n) n
        let pushed := bodies.map .block ++ other.getD []
        return (first ++ pushed ++ rest ++ [.instr (.call .comAll .null n self)], more)
      else
        let op := if isAnd then .jumpResultFalse else .jumpResultTrue
        return (first ++ [chain op bodies], false)

/-- A statement whose first word is a control word. -/
def control (k : Nested) (c : Control) (self prev : Nat) : CompileM Statement := do
  match c with
  | .local =>
      let (args, n, more) ← takeArgs k .ident prev maxArgs 0
      let surplus ← surplusArgs k more prev
      return ([.shadow args surplus n], false)
  | .run | .runOuter =>
      match ← k.arg .code prev with
      | none => return (plain .null, false)
      | some code => return (code ++ plain (if c = .run then .run else .runOuter), true)
  | .branch => branch k self prev
  | .result =>
      match ← k.arg .any prev with
      | none => return (plain .null, false)
      | some code => return (code ++ plain .result, true)
  | .not =>
      match ← k.arg .anyView prev with
      | none => return (plain .yes, false)
      | some code => return (code ++ plain .not, true)
  | .and => connective k true self prev
  | .or => connective k false self prev

/-- A statement whose first word is an integer variable. A variable in hexadecimal takes up to
three bytes. -/
def intVarStatement (k : Nested) (hex : Bool) (self prev : Nat) : CompileM Statement := do
  match ← k.arg .int prev with
  | none => return (plain .print .null self, false)
  | some a =>
      if !hex then return (a ++ plain .setIntVar .null self, true)
      else match ← k.arg .int (prev + 1) with
        | none => return (a ++ plain .setIntVar .null self, false)
        | some b =>
            match ← k.arg .int (prev + 2) with
            | none => return (a ++ b ++ plain .setIntVar2 .null self, false)
            | some c => return (a ++ b ++ c ++ plain .setIntVar3 .null self, true)

/-- A statement whose first word is a float variable. -/
def floatVarStatement (k : Nested) (self prev : Nat) : CompileM Statement := do
  match ← k.arg .float prev with
  | none => return (plain .print .null self, false)
  | some a => return (a ++ plain .setFloatVar .null self, true)

/-- A statement whose first word is a text variable; its arguments are joined. -/
def textVarStatement (k : Nested) (self prev : Nat) : CompileM Statement := do
  match ← k.arg .textView prev with
  | none => return (plain .print .null self, false)
  | some a =>
      let (rest, n, more) ← takeArgs k .anyView prev (maxArgs - 1) 1
      let join := if 1 < n then plain .conc .text n else []
      return (a ++ rest ++ join ++ plain .setTextVar .null self, more)

/-- A statement whose first word is a number: the number is its value. -/
def numberStatement (view : Bool) (name : Bytes) : Code :=
  let (v, n) := Reading.uint64 name
  let value := if n == name.length then intCode v.toUInt32.toInt32
    else if view then viewCode name else textCode name
  value ++ plain .result

/-- An assignment sign stands alone: behind it is a blank, the end of the statement or a comment. -/
def isAssignment (c : Cursor) : Bool :=
  c.peek == code '=' &&
    let d := c.peek 1
    (d == code '/' && c.peek 2 == code '/') || d == code ';' || d == 0x20 || d == 0x09 ||
      d == 0x0D || d == 0x0A || d == 0

/-- A call of a bare word. -/
def callBare (k : Nested) (view : Bool) (name : Bytes) (prev : Nat) : CompileM Statement := do
  match (← get).table.lookup? name with
  | none =>
      if Reading.isNumeral name then return (numberStatement view name, true)
      else callComputed k (viewCode name) prev
  | some (i, id) =>
      match id.role with
      | .alias =>
          let (args, n, more) ← takeArgs k .any prev maxArgs 0
          let op := if i < maxArgs then .callArg else .call
          return (args ++ [.instr (.call op .null n i)], more)
      | .command sig _ =>
          commandArgs k sig.toArray i prev ((sig.length + 2) * (maxArgs + 2)) 0 {}
      | .control c => control k c i prev
      | .intVar .. => intVarStatement k id.flags.hex i prev
      | .floatVar .. => floatVarStatement k i prev
      | .textVar .. => textVarStatement k i prev

/-- One statement. -/
def statement (k : Nested) (view : Bool) (prev : Nat) : CompileM Statement := do
  match ← k.head prev with
  | none => return ([], false)
  | some head =>
      skipComments
      if isAssignment (← cursor) then
        advance 1
        assignment k head prev
      else match head with
        | .computed push => callComputed k push prev
        | .bare name => callBare k view name prev

def quotedBracket (c : UInt8) : Bytes := [Syntax.quote, c, Syntax.quote]

/-- Passes over the end of a statement; true if it is the end of all of them. The closing bracket
is zero if the text ends them. The fuel bounds the slashes on the way. -/
def endOfStatement (closing : UInt8) : (fuel : Nat) → CompileM Bool
  | 0 => return true
  | fuel + 1 => do
      skipTo fun c => c == code ')' || c == code ']' || c == code ';' || c == code '/' || c == 0x0A
      if (← cursor).rest.isEmpty then
        if closing != 0 then warn (utf8 "missing " ++ quotedBracket closing)
        return true
      else
        let c ← next
        if c == code ')' || c == code ']' then
          if c == closing then return true
          else
            warn (utf8 "unexpected " ++ quotedBracket c)
            return false
        else if c == code '/' then
          if (← peek) == code '/' then skipTo (· == 0x0A)
          endOfStatement closing fuel
        else return false

/-- Statements up to the closing bracket; the fuel bounds their number. -/
def statementsFrom (k : Nested) (view : Bool) (closing : UInt8) (prev : Nat) :
    (fuel : Nat) → CompileM Code
  | 0 => return []
  | fuel + 1 => do
      let (code, more) ← statement k view prev
      let left := (← cursor).rest.length
      let surplus ← surplusArgs k more prev
      let ended ← endOfStatement closing (left + 1)
      if ended then return code ++ surplus
      else return code ++ surplus ++ (← statementsFrom k view closing prev fuel)

/-- Statements up to the closing bracket. Each takes a byte at least, so there are no more than
bytes, and one at the end. -/
def statements (k : Nested) (view : Bool) (closing : UInt8) (prev : Nat) : CompileM Code := do
  statementsFrom k view closing prev ((← cursor).rest.length + 1)

/-- The statements of a text as a block literal. -/
def textLiteral (k : Nested) (text name : Bytes) (line : Nat := 1) : CompileM Code :=
  return literal (← withText text name line (statements k false 0 0))

end ConsoleScript.Compile
