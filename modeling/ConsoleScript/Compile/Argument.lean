import ConsoleScript.Compile.Statement

/-!
Arguments: words, strings, look-ups, statements in parentheses and block literals, each compiled for
what the place wants. The compiler as a whole is tied together here: what is nested in an argument
is compiled by the compiler for one level less, and a text has fewer levels than bytes.
-/

namespace ConsoleScript.Compile

open Bytecode

/-- The code of a bare word or string. -/
def wordCode (k : Nested) (want : Want) (word name : Bytes) : CompileM Code := do
  match want with
  | .anyView => return if word.isEmpty then nullCode else viewCode word
  | .textView => return viewCode word
  | .any => return if word.isEmpty then nullCode else textCode word
  | .text | .head => return textCode word
  | .float => return floatCode (Reading.single word)
  | .int => return intCode (Reading.int word)
  | .condition => if word.isEmpty then return nullCode else textLiteral k word name
  | .code => textLiteral k word name
  | .ident => return identCode (← intern word)
  | .nothing => return []

/-- What stands for a look-up without a name. -/
def invalidLookup (k : Nested) (want : Want) : CompileM Code := do
  match want with
  | .nothing => return []
  | .any | .anyView | .head | .condition => return nullCode
  | want => wordCode k want [] []

/-- Replaces a name on the stack by its value. -/
def lookupComputed (want : Want) : Code :=
  (match want with
    | .anyView | .condition => plain .lookupViewNamed
    | .textView | .code | .ident => plain .lookupViewNamed .text
    | want => plain .lookupNamed want.tag) ++ lookupTail want

/-- What stands in for the argument of a letter when a command is looked up. -/
def lookupArg (letter : Letter) (self given : Nat) : Code :=
  match letter with
  | .self => identCode self
  | .count => intCode (-1)
  | .pressed => []
  | letter => missingArg letter given

/-- Adds what stands in for the argument of a letter to the code of those before it, which are
counted. -/
def addLookupArg (self : Nat) (args : Code × Nat) (letter : Letter) : Code × Nat :=
  (args.1 ++ lookupArg letter self args.2, if letter.isSlot then args.2 + 1 else args.2)

/-- What stands in for the arguments of a command, and their number. -/
def lookupArgs (sig : Signature) (self : Nat) : Code × Nat := sig.foldl (addLookupArg self) ([], 0)

/-- The call of a command without arguments. -/
def lookupCall (sig : Signature) (self : Nat) (ret : RetTag) : Code :=
  let (args, given) := lookupArgs sig self
  args ++ [
    if sig.any (· = .all) then .instr (.call .comAll ret given self)
    else if sig.any (· = .joined) then .instr (.call .comJoined ret given self)
    else if sig.any (· = .pressed) then .instr (.plain .comPressed ret self)
    else .instr (.plain .com ret self)]

/-- A command that is looked up is called without arguments. -/
def lookupCommand (sig : Signature) (self : Nat) (want : Want) (prev : Nat) : Code :=
  (if maxResults ≤ prev then [.spill (lookupCall sig self want.tag) want.tag]
    else lookupCall sig self want.tag ++ plain .resultArg want.tag) ++ lookupTail want

/-- The value of a named identifier. -/
def lookupNamed (k : Nested) (name : Bytes) (want : Want) (prev : Nat) : CompileM Code := do
  let i ← intern name
  let role ← roleOf i
  if want = .nothing && (role.isVar || role.isAlias) then return []
  match role with
  | .intVar .. | .floatVar .. =>
      let push := match role with
        | .intVar .. => plain .intVar (want.tagOr .int) i
        | _ => plain .floatVar (want.tagOr .float) i
      return push ++ if want = .condition then [] else lookupTail want
  | .textVar .. =>
      let push := match want with
        | .anyView | .textView | .code | .ident | .condition => plain .textVarView .null i
        | want => plain .textVar (want.tagOr .text) i
      return push ++ lookupTail want
  | .alias =>
      let isArg := i < maxArgs
      let asView := if isArg then .lookupViewArg else .lookupView
      let push := match want with
        | .anyView | .condition => plain asView .null i
        | .textView | .code | .ident => plain asView .text i
        | want => plain (if isArg then .lookupArg else .lookup) (want.tagOr .text) i
      return push ++ lookupTail want
  | .command sig _ => return lookupCommand sig i want prev
  | .control _ => invalidLookup k want

/-- The look-up behind its sign: of a name, a string, statements or a block literal. -/
def lookupOne (k : Nested) (want : Want) (prev : Nat) : CompileM Code := do
  let c ← peek
  if c == code '(' || c == code '[' then
    match ← k.arg .textView prev with
    | some name => return name ++ lookupComputed want
    | none => invalidLookup k want
  else if c == Syntax.quote then lookupNamed k (← cutRaw) want prev
  else
    let name ← cutWord
    if name.isEmpty then invalidLookup k want else lookupNamed k name want prev

/-- A look-up with its signs. Each sign before the last one looks up the name that the signs behind
it give. -/
def lookup (k : Nested) (want : Want) (prev : Nat) : CompileM Code := do
  let signs := ((← cursor).rest.takeWhile (· == code '$')).length
  advance signs
  if signs ≤ 1 then lookupOne k want prev
  else
    let name ← lookupOne k .textView prev
    let between := (List.replicate (signs - 2) (lookupComputed .textView)).flatten
    return name ++ between ++ lookupComputed want

/-- How a text inside a block literal is being read. -/
inductive TextMode where
  | plain
  | quoted
  | escaped
  /-- A comment; one with punctuation behind its slashes is kept. -/
  | comment (kept : Bool)

/-- The text of a block literal: carriage returns and comments outside strings are dropped. -/
def blockText : TextMode → Bytes → Bytes
  | _, [] => []
  | .plain, c :: s =>
      if c == 0x0D then blockText .plain s
      else if c == Syntax.quote then c :: blockText .quoted s
      else if Syntax.startsComment (c :: s) then
        let kept := Byte.isPunct (Bytes.byteAt s 1)
        if kept then c :: blockText (.comment true) s else blockText (.comment false) s
      else c :: blockText .plain s
  | .quoted, c :: s =>
      if c == 0x0D then blockText .plain s
      else if c == 0x0A || c == Syntax.quote then c :: blockText .plain s
      else c :: blockText (if c == Syntax.caret then .escaped else .quoted) s
  | .escaped, c :: s =>
      if c == 0x0D then blockText .plain s
      else if c == 0x0A then c :: blockText .plain s
      else c :: blockText .quoted s
  | .comment kept, c :: s =>
      if c == 0x0A then c :: blockText .plain s
      else if kept then c :: blockText (.comment true) s
      else blockText (.comment false) s

def blockTextCode (view : Bool) (s : Bytes) : Code :=
  let text := blockText .plain s
  if view then viewCode text else textCode text

/-- What a splice sign inside a block literal stands before: a name, a string, statements or a
block literal that gives a name. -/
def splice (k : Nested) (prev : Nat) : CompileM (Option Code) := do
  let c ← peek
  let named (name : Bytes) : CompileM (Option Code) := do
    let i ← intern name
    match ← roleOf i with
    | .intVar .. => return some (plain .intVar .null i)
    | .floatVar .. => return some (plain .floatVar .null i)
    | .textVar .. => return some (plain .textVarView .null i)
    | .alias => return some (plain (if i < maxArgs then .lookupViewArg else .lookupView) .null i)
    | _ => return some (viewCode name ++ plain .lookupViewNamed)
  if c == code '(' then k.arg .anyView prev
  else if c == code '[' then
    return (← k.arg .textView prev).map (· ++ plain .lookupViewNamed)
  else if c == Syntax.quote then named (← cutRaw)
  else
    let name := (← cursor).rest.takeWhile fun c => Byte.isAlnum c || c == code '_'
    if name.isEmpty then return none
    advance name.length
    named name

/-- A block literal in progress. -/
structure Splicing where
  /-- Code of the texts and splices so far. -/
  code : Code := []
  /-- The number of operands that the code leaves. -/
  parts : Nat := 0
  /-- The source from the last splice on. -/
  source : Bytes

/-- The text behind the last splice and before the rest of the source. -/
def Splicing.segment (st : Splicing) (rest : Bytes) : Bytes :=
  st.source.take (st.source.length - rest.length)

/-- Adds the text before a splice, and the splice. When the operands would get too many, those
there are joined into one. -/
def addSplice (k : Nested) (prev : Nat) (segment : Bytes) (st : Splicing) : CompileM Splicing := do
  let (merge, parts) :=
    if maxArgs < st.parts + 2 then (plain .concWord .text st.parts, 1) else ([], st.parts)
  let text := blockTextCode true segment
  let spliced ← splice k (prev + parts + 1)
  return {
    code := st.code ++ merge ++ text ++ spliced.getD []
    parts := parts + 1 + if spliced.isSome then 1 else 0
    source := (← cursor).rest }

/-- Reads a block literal up to its closing bracket, where `depth` brackets are open, and gives the
text behind the last splice with the rest. Splice signs as many as open brackets make a splice. The
fuel bounds the marks on the way. -/
def readLiteral (k : Nested) (prev : Nat) :
    (fuel depth : Nat) → Splicing → CompileM (Splicing × Bytes)
  | 0, _, st => return (st, [])
  | fuel + 1, depth, st => do
      skipTo fun c => c == code '@' || c == Syntax.quote || c == code '/' || c == code '[' ||
        c == code ']'
      let here := (← cursor).rest
      if here.isEmpty then
        warn (utf8 "missing " ++ quotedBracket (code ']'))
        return (st, st.source)
      else
        let c ← next
        if c == Syntax.quote then
          let _ ← cutStringBody
          readLiteral k prev fuel depth st
        else if c == code '/' then
          if (← peek) == code '/' then skipTo (· == 0x0A)
          readLiteral k prev fuel depth st
        else if c == code '[' then readLiteral k prev fuel (depth + 1) st
        else if c == code ']' then
          if depth ≤ 1 then return (st, st.segment here)
          else readLiteral k prev fuel (depth - 1) st
        else
          let more := ((← cursor).rest.takeWhile (· == code '@')).length
          advance more
          if more + 1 < depth then readLiteral k prev fuel depth st
          else
            if depth < more + 1 then warn (utf8 "too many @s")
            readLiteral k prev fuel depth (← addSplice k prev (st.segment here) st)

/-- A block literal without splices and not empty. -/
def plainLiteral (k : Nested) (want : Want) (segment name : Bytes) (line : Nat) :
    CompileM Code := do
  match want with
  | .nothing => return []
  | .code | .condition => textLiteral k segment name line
  | .ident =>
      noteLiteralName segment
      return identCode (← intern segment)
  | .textView | .anyView => return blockTextCode true segment
  | .int => return blockTextCode false segment ++ plain .force .int
  | .float => return blockTextCode false segment ++ plain .force .float
  | .any | .text | .head => return blockTextCode false segment

/-- An empty block literal. -/
def emptyLiteral (k : Nested) (want : Want) (name : Bytes) : CompileM Code := do
  match want with
  | .nothing => return []
  | .condition => return nullCode
  | .code => return literal []
  | .ident => return dummyCode
  | .textView | .anyView => return viewCode []
  | .any | .text | .head => return textCode []
  | want => wordCode k want [] name

/-- A block literal behind its opening bracket. -/
def blockLiteral (k : Nested) (want : Want) (prev : Nat) : CompileM Code := do
  let line := (← cursor).line
  let name := (← cursor).name
  let source := (← cursor).rest
  let (st, segment) ← readLiteral k prev (source.length + 1) 1 { source }
  if st.parts == 0 then
    if segment.isEmpty then emptyLiteral k want name
    else plainLiteral k want segment name line
  else
    let (last, parts) :=
      if segment.isEmpty then ([], st.parts)
      else (blockTextCode true segment, st.parts + 1)
    let code := st.code ++ last
    let joined :=
      if maxResults ≤ prev then [.spill (code ++ plain .concResult want.tag parts) want.tag]
      else code ++ plain .concWord want.tag parts
    return joined ++ lookupTail want

/-- Statements behind an opening parenthesis. -/
def group (k : Nested) (want : Want) (prev : Nat) : CompileM Code := do
  let name := (← cursor).name
  if maxResults ≤ prev then
    let inner ← statements k want.takesView (code ')') 0
    return [.spill inner want.tag] ++ lookupTail want
  else
    let inner ← statements k want.takesView (code ')') prev
    if inner.isEmpty then wordCode k want [] name
    else return inner ++ plain .resultArg want.tag ++ lookupTail want

/-- A string as an argument. -/
def stringArg (k : Nested) (want : Want) : CompileM Code := do
  let name := (← cursor).name
  let s ← cutString
  match want with
  | .any | .text => return textCode s
  | .anyView | .textView => return viewCode s
  | want => wordCode k want s name

/-- A bare word as an argument. -/
def wordArg (k : Nested) (want : Want) : CompileM (Option Code) := do
  let name := (← cursor).name
  let word ← cutWord
  if word.isEmpty then return none else return some (← wordCode k want word name)

/-- One argument. -/
def argument (k : Nested) (want : Want) (prev : Nat) : CompileM (Option Code) := do
  skipComments
  let c ← peek
  if c == Syntax.quote then return some (← stringArg k want)
  else if c == code '$' then return some (← lookup k want prev)
  else if c == code '(' then
    advance 1
    return some (← group k want prev)
  else if c == code '[' then
    advance 1
    return some (← blockLiteral k want prev)
  else wordArg k want

/-- The first word of a statement. -/
def firstWord (k : Nested) (prev : Nat) : CompileM (Option Head) := do
  skipComments
  let c ← peek
  if c == Syntax.quote then
    let s ← cutString
    return some (if s.isEmpty then .computed (viewCode []) else .bare s)
  else if c == code '$' || c == code '(' || c == code '[' then
    return (← argument k .head prev).map .computed
  else
    let word ← cutWord
    if word.isEmpty then return none else return some (.bare word)

/-- The compiler for texts nested up to a number of levels. -/
def nested : (levels : Nat) → Nested
  | 0 => ⟨fun _ _ => return none, fun _ => return none⟩
  | levels + 1 => ⟨argument (nested levels), firstWord (nested levels)⟩

/-- A compiled text: its block, the table with the names that are new, and the warnings in
order. -/
structure Output where
  block : Block
  table : Table
  warnings : List Bytes

/-- The code of a text, and the state in which compiling it ends. -/
def program (table : Table) (src name : Bytes) : Code × State :=
  (statements (nested (src.length + 4)) false 0 0).run { cursor := { rest := src, name }, table }

end Compile

open Compile in
/-- Compiles a text. Compiling never fails: what cannot be read is passed over with a warning. -/
def compile (table : Table) (src name : Bytes) : Compile.Output :=
  let (code, s) := program table src name
  { block := toBlock name code, table := s.table, warnings := s.warnings.reverse }

end ConsoleScript
