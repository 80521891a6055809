import ConsoleScript.Engine.Shaping
import ConsoleScript.Library.Commands

/-!
Calls. Commands are called with arguments that the compiler has shaped or that are shaped now; an
alias is called by running its compiled body with its arguments bound. Looking up or calling a name
that is only known at run time goes by what the name stands for then.
-/

namespace ConsoleScript.Engine

open Bytecode (RetTag)

/-- Calls an identifier with arguments as they are; what cannot be called gives null. -/
def invoke (k : Runner) (id : Ident) (args : List Value) : Engine Value := do
  match id.role with
  | .command _ (.builtin b) => Library.apply k b args
  | .command _ (.host f) => runHost k (f args)
  | .control c => Library.applyControl k c args
  | _ => return .null

/-- Whether an identifier has something to call besides the body of an alias. -/
def isCallable (id : Ident) : Bool := match id.role with
  | .command .. => true
  | .control c => c != .local
  | _ => false

/-- Calls a command with arguments that are shaped first. -/
def callShaped (k : Runner) (i : Nat) (id : Ident) (isLookup : Bool) (args : List Value) :
    Engine Value := do
  invoke k id (← shape id.role.signature i isLookup args)

/-- The compiled body of an alias, which is kept. -/
def bodyOf (i : Nat) : Engine Bytecode.Block := do
  let id ← identAt i
  match id.body with
  | some block => return block
  | none =>
      let block ← compileText id.value.toBytes id.name
      modifyIdent i fun id => { id with body := some block }
      return block

/-- Calls an alias. -/
def callAlias (k : Runner) (i : Nat) (args : List Value) (ret : RetTag) : Engine Value := do
  let overridden := (← identAt i).flags.overridden
  withArgs i overridden args do
    let block ← bodyOf i
    return (← k block 1).1.force ret

/-- The value of a name that is known only now. A command is called without arguments. -/
def lookupNamed (k : Runner) (name : Bytes) (ret : RetTag) (asView : Bool) : Engine Value := do
  let s ← get
  match s.table.lookup? name with
  | none =>
      debug (utf8 "unknown alias lookup: " ++ name)
      return .absent ret asView
  | some (i, id) =>
      match id.role with
      | .alias =>
          if id.flags.unknown then
            debug (utf8 "unknown alias lookup: " ++ name)
            return .absent ret asView
          else if i < maxArgs && !s.isBound i then return .absent ret asView
          else return id.value.lookedUp ret asView
      | .textVar t _ => return (Value.ofBytes t).lookedUp ret asView
      | .intVar _ _ store _ => return (Value.int (s.intOf store)).lookedUp ret false
      | .floatVar _ _ x _ => return (Value.float x).lookedUp ret false
      | .command .. => return (← atLevel (.taking .lookup) .untaken (callShaped k i id true [])).force ret
      | .control _ => return .absent ret asView

/-- Calls what a name stands for: a variable is printed or written. -/
def callFound (k : Runner) (name : Bytes) (i : Nat) (id : Ident) (args : List Value)
    (ret : RetTag) : Engine Value := do
  match id.role with
  | .alias =>
      if id.flags.unknown then
        debug (utf8 "unknown command: " ++ name)
        return .null
      else if i < maxArgs && !(← get).isBound i then return .null
      else callAlias k i args ret
  | .intVar .. | .floatVar .. | .textVar .. =>
      match args with
      | [] =>
          printVar i
          return .null
      | v :: _ =>
          assign k i v
          return .null
  | _ => if isCallable id then callShaped k i id false args else return .null

/-- Calls what a value names; a value that is no name is the result. -/
def callNamed (k : Runner) (head : Value) (args : List Value) (ret : RetTag) : Engine Value := do
  match head.text? with
  | none => return head.settle.force ret
  | some name =>
      match (← get).table.lookup? name with
      | none =>
          if Reading.isNumeral name then return (Value.ofBytes name).force ret
          else
            debug (utf8 "unknown command: " ++ name)
            return Value.null.force ret
      | some (i, id) => return (← callFound k name i id args ret).force ret

end ConsoleScript.Engine
