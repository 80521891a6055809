import ConsoleScript.Engine.Activation

/-!
What each instruction does. An instruction reads its operands from the stack of the run, and leaves
values on the stack or in the result; where its return tag counts, the value is converted to the
type of the tag. Nested code is run by the runner that every step is given.
-/

namespace ConsoleScript.Engine

open Bytecode

/-- A literal as an operand. -/
def literalValue (op : Op) : Literal → Value
  | .null => .null
  | .int i => .int i
  | .float x => .float x
  | .text s => .text (if op = .view then .literal else .owned) s

/-- Code that gives a number. -/
def literalBlock (i : Instr) : Block :=
  ((Block.start.emitInstr i).emit (Word.make .result .null 0)).emit (Word.make .exit .null 0)

/-- A value as code: numbers give themselves, texts are compiled, and other values do nothing. -/
def compileValue : Value → Engine Value
  | .int i => return .code (literalBlock (.ofInt i)) 1
  | .float x => return .code (literalBlock (.ofFloat x)) 1
  | .text _ s => codeOf s
  | _ => return emptyCode .null

/-- A value as a condition: texts are compiled, except that the empty text is null. -/
def compileCondition (v : Value) : Engine Value := match v.text? with
  | some [] => return .null
  | some s => codeOf s
  | none => return v

/-- Pushes the literal of the instruction before the next one, and passes over its words. -/
def pushLiteral (b : Block) (op : Op) (a : Activation) : Engine Activation := do
  let at' := a.pc - 1
  match decode b.words at' with
  | .error e => failAt b.name at' (.decode e)
  | .ok i => Activation.push (literalValue op i.lit) { a with pc := at' + i.size }

def callCommand (k : Runner) (id : Ident) (n : Nat) (ret : RetTag) (a : Activation) :
    Engine Activation := do
  let v ← invoke k id (← a.window n)
  return (a.drop n).setResult (v.force ret)

/-- Calls a command with the last `n` operands as one text. -/
def callJoined (k : Runner) (id : Ident) (n : Nat) (ret : RetTag) (a : Activation) :
    Engine Activation := do
  let s := Value.join true (← a.window n)
  let v ← invoke k id [.ofBytes s]
  return (a.drop n).setResult (v.force ret)

def joinOperands (spaced : Bool) (n : Nat) (ret : RetTag) (a : Activation) :
    Engine (Value × Activation) := do
  let s := Value.join spaced (← a.window n)
  return ((Value.ofBytes s).force ret, a.drop n)

/-- The value of a variable of the kind that an instruction reads. -/
def variableValue (op : Op) (ret : RetTag) (id : Ident) : Engine Value := do
  match op, id.role with
  | .textVar, .textVar t _ => return (Value.ofBytes t).lookedUp ret false
  | .textVarView, .textVar t _ => return .text .view t
  | .intVar, .intVar _ _ store _ => return (Value.int ((← get).intOf store)).lookedUp ret false
  | .floatVar, .floatVar _ _ x _ => return (Value.float x).lookedUp ret false
  | _, _ => fail .badAccess

/-- The value of an alias; one that was never defined is reported. -/
def aliasValue (id : Ident) (ret : RetTag) (asView : Bool) : Engine Value := do
  if id.flags.unknown then debug (utf8 "unknown alias lookup: " ++ id.name)
  return id.value.lookedUp ret asView

/-- The value of an argument slot; one that is not bound has none. -/
def argValue (i : Nat) (id : Ident) (ret : RetTag) (asView : Bool) : Engine Value := do
  if (← get).isBound i then return id.value.lookedUp ret asView else return .absent ret asView

/-- Whether a call does nothing: the alias is not defined, which is reported, or the slot is not
bound. -/
def isUndefined (i : Nat) (id : Ident) (isArg : Bool) : Engine Bool := do
  if isArg then return !(← get).isBound i
  else
    if id.flags.unknown then debug (utf8 "unknown command: " ++ id.name)
    return id.flags.unknown

/-- Calls an alias with the last `n` operands. An alias that is not defined, or a slot that is not
bound, is not called; its operands are dropped. -/
def callIdent (k : Runner) (i : Nat) (id : Ident) (isArg : Bool) (n : Nat) (ret : RetTag)
    (a : Activation) : Engine Activation := do
  if ← isUndefined i id isArg then
    if a.stack.length < n then fail .badAccess
    else return (a.drop n).setResult (Value.null.force ret)
  else
    let v ← callAlias k i (← a.window n) ret
    return (a.drop n).setResult (v.force ret)

/-- Shadows the aliases that the last `n` operands refer to. -/
def shadow (n : Nat) (a : Activation) : Engine Activation := do
  let ids := (← a.window n).map fun v => v.ident?.getD dummyIndex
  ids.forM pushAlias
  return { a.drop n with locals := ids.reverse ++ a.locals }

/-- An instruction that gets or sets a variable. -/
def stepVariable (k : Runner) (b : Block) (op : Op) (ret : RetTag) (i : Nat) (a : Activation) :
    Engine Activation := do
  match op with
  | .setTextVar =>
      let _ ← a.identIn b i
      let (v, a) ← a.pop
      setTextVar k i v.toBytes
      return a
  | .setIntVar =>
      let _ ← a.identIn b i
      let (v, a) ← a.pop
      setIntVar k i v.toInt
      return a
  | .setIntVar2 =>
      let (y, a) ← a.pop
      let (x, a) ← a.pop
      let _ ← a.identIn b i
      setIntVar k i ((x.toInt <<< 16) ||| (y.toInt <<< 8))
      return a
  | .setIntVar3 =>
      let (z, a) ← a.pop
      let (y, a) ← a.pop
      let (x, a) ← a.pop
      let _ ← a.identIn b i
      setIntVar k i ((x.toInt <<< 16) ||| (y.toInt <<< 8) ||| z.toInt)
      return a
  | .setFloatVar =>
      let _ ← a.identIn b i
      let (v, a) ← a.pop
      setFloatVar k i v.toSingle
      return a
  | .print =>
      let _ ← a.identIn b i
      printVar i
      return a
  | op => a.push (← variableValue op ret (← a.identIn b i))

/-- An instruction on aliases and argument slots. -/
def stepAlias (k : Runner) (b : Block) (op : Op) (ret : RetTag) (i : Nat) (a : Activation) :
    Engine Activation := do
  match op with
  | .ident =>
      let _ ← a.identIn b i
      a.push (.ident i)
  | .identArg =>
      let _ ← a.identIn b i
      bindArg i
      a.push (.ident i)
  | .identNamed => a.replaceTop identOf
  | .lookup => a.push (← aliasValue (← a.identIn b i) ret false)
  | .lookupView => a.push (← aliasValue (← a.identIn b i) ret true)
  | .lookupArg => a.push (← argValue i (← a.identIn b i) ret false)
  | .lookupViewArg => a.push (← argValue i (← a.identIn b i) ret true)
  | .lookupNamed | .lookupViewNamed => a.replaceTop fun v => match v.text? with
    | some name => lookupNamed k name ret (op = .lookupViewNamed)
    | none => return v
  | .alias =>
      let _ ← a.identIn b i
      let (v, a) ← a.pop
      setAlias i v
      return a
  | .aliasArg =>
      let _ ← a.identIn b i
      let (v, a) ← a.pop
      setArg i v
      return a
  | _ =>
      let (v, a) ← a.pop
      let (name, a) ← a.pop
      assignNamed k name.toBytes v
      return a

/-- An instruction that calls. -/
def stepCall (k : Runner) (b : Block) (op : Op) (w : UInt32) (a : Activation) :
    Engine Activation := do
  let ret := Word.ret w
  let arg := (Word.arg w).toNat
  let argc := Word.callArgc w
  let index := Word.callIndex w
  match op with
  | .com =>
      let id ← a.identIn b arg
      callCommand k id id.role.signature.slots ret a
  | .comPressed =>
      let id ← a.identIn b arg
      callCommand k id id.role.signature.slots ret (← a.push (.int 1))
  | .comAll => callCommand k (← a.identIn b index) argc ret a
  | .comJoined => callJoined k (← a.identIn b index) argc ret a
  | .call => callIdent k index (← a.identIn b index) false argc ret a
  | .callArg => callIdent k index (← a.identIn b index) true argc ret a
  | _ =>
      match ← a.window (arg + 1) with
      | [] => fail .badAccess
      | head :: args =>
          let v ← callNamed k head args ret
          return (a.drop (arg + 1)).setResult v

/-- An instruction that jumps. -/
def stepJump (k : Runner) (op : Op) (n : UInt32) (a : Activation) : Engine Activation := do
  match op with
  | .jumpTrue =>
      let (v, a) ← a.pop
      return if v.toBool then a.jump n else a
  | .jumpFalse =>
      let (v, a) ← a.pop
      return if v.toBool then a else a.jump n
  | .jumpResultTrue | .jumpResultFalse =>
      let (v, a) ← a.pop
      let a := a.setResult (← Library.codeResult k v)
      return if a.result.toBool == (op = .jumpResultTrue) then a.jump n else a
  | _ => return a.jump n

/-- What an instruction does to the run, whose next instruction is already the one behind it. An
exit is not among them, since it ends the run. -/
def perform (k : Runner) (b : Block) (op : Op) (w : UInt32) (a : Activation) :
    Engine Activation := do
  let ret := Word.ret w
  let arg := Word.arg w
  match op with
  | .start | .offset => return a
  | .null => return a.setResult (Value.null.force ret)
  | .yes => return a.setResult ((Value.int 1).force ret)
  | .no => return a.setResult ((Value.int 0).force ret)
  | .not =>
      let (v, a) ← a.pop
      return a.setResult ((Value.ofBool !(← Library.codeResult k v).toBool).force ret)
  | .pop => return (← a.pop).2
  | .enter =>
      let (v, pc) ← k b a.pc
      Activation.push v { a with pc }
  | .enterResult =>
      let (v, pc) ← k b a.pc
      return { a with pc, result := v }
  | .resultArg => (a.setResult .null).push (a.result.force ret)
  | .val | .valInline | .view => pushLiteral b op a
  | .dup => a.push ((← a.top).1.lookedUp ret false)
  | .block => (a.jump arg).push (.code b (a.pc + 1))
  | .empty => a.push (emptyCode ret)
  | .compile => a.replaceTop compileValue
  | .cond => a.replaceTop compileCondition
  | .force => a.replaceTop fun v => return v.force ret
  | .result =>
      let (v, a) ← a.pop
      return a.setResult (v.force ret)
  | .conc | .concWord =>
      let (v, a) ← joinOperands (op = .conc) arg.toNat ret a
      a.push v
  | .concResult =>
      let (v, a) ← joinOperands false arg.toNat ret a
      return a.setResult v
  | .textVar | .textVarView | .setTextVar | .intVar | .setIntVar | .setIntVar2 | .setIntVar3
  | .floatVar | .setFloatVar | .print => stepVariable k b op ret arg.toNat a
  | .ident | .identNamed | .identArg | .lookup | .lookupNamed | .lookupArg | .lookupView
  | .lookupViewNamed | .lookupViewArg | .alias | .aliasNamed | .aliasArg =>
      stepAlias k b op ret arg.toNat a
  | .com | .comPressed | .comJoined | .comAll | .call | .callNamed | .callArg =>
      stepCall k b op w a
  | .local => shadow arg.toNat a
  | .run =>
      let (v, a) ← a.pop
      return a.setResult ((← runValue k v).force ret)
  | .runOuter =>
      let (v, a) ← a.pop
      return a.setResult ((← withOuterArgs (runValue k v)).force ret)
  | .jump | .jumpTrue | .jumpFalse | .jumpResultTrue | .jumpResultFalse => stepJump k op arg a
  | .exit | .bool | .down =>
      failAt b.name (a.pc - 1) (.invalidInstruction (Word.opName (Word.opCode w)))

/-- Where a step leads. -/
inductive Next where
  | go (a : Activation)
  /-- The run ended with a value before a position. -/
  | done (v : Value) (pc : Nat)

/-- One instruction of a run. -/
def step (k : Runner) (b : Block) (a : Activation) : Engine Next := do
  match b.words[a.pc]? with
  | none => failAt b.name (a.pc - 1) .ranOffEnd
  | some w =>
      match Word.op? w with
      | none => failAt b.name a.pc (.invalidInstruction (Word.opName (Word.opCode w)))
      | some .exit => return .done (a.result.force (Word.ret w)) (a.pc + 1)
      | some op => return .go (← perform k b op w { a with pc := a.pc + 1 })

end ConsoleScript.Engine
