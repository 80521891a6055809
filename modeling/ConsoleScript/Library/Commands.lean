import ConsoleScript.Library.Arithmetic
import ConsoleScript.Library.Catalog
import ConsoleScript.Library.Loops
import ConsoleScript.Library.Texts

/-!
What the commands of the library do. Each takes its arguments as its signature shaped them and
gives its result; a command without one gives null.
-/

namespace ConsoleScript.Library

open Engine

/-- Bodies with conditions: the body behind the first condition that holds is run. A last body
without a condition is run if no condition holds. -/
def firstHolding (k : Runner) : List Value → Engine Value
  | [] => return .null
  | [body] => runValue k body
  | condition :: body :: rest => do
      if ← holds k condition then runValue k body else firstHolding k rest

/-- Bodies with labels: the body behind the first label that matches is run. -/
def firstMatching (k : Runner) (isMatch : Value → Bool) : List Value → Engine Value
  | label :: body :: rest =>
      if label.isNull || isMatch label then runValue k body else firstMatching k isMatch rest
  | _ => return .null

def CaseKind.matches (kind : CaseKind) (v label : Value) : Bool := match kind with
  | .int => label.toInt == v.toInt
  | .float => label.toSingle.eq v.toSingle
  | .text => label.toBytes == v.toBytes

/-- Runs a value that is code, and takes any other as it is. -/
def codeResult (k : Runner) (v : Value) : Engine Value := do
  match v with
  | .code block pc => return (← k block pc).1
  | v => return v

/-- Operands from the left until one is `stop`; the last one that was looked at is the result. -/
def firstBeing (k : Runner) (stop : Bool) (before : Value) : List Value → Engine Value
  | [] => return before
  | v :: rest => do
      let v ← codeResult k v
      if v.toBool == stop then return v else firstBeing k stop v rest

/-- Runs code with an alias shadowed. Argument slots and other identifiers are left alone, and then
nothing is run. -/
def shadowed (k : Runner) (args : List Value) : Engine Value := do
  match ← loopVariable? (← arg args 0) with
  | none => return .null
  | some i =>
      if i < maxArgs then return .null
      else
        pushArg i (← arg args 1)
        modifyIdent i clearUnknown
        ensuring (do runValue k (← arg args 2)) (popArg i)

/-- Runs code with warnings silenced. -/
def silenced {α : Type} (m : Engine α) : Engine α := do
  modify fun s => { s with muted := s.muted + 1 }
  ensuring m (modify fun s => { s with muted := s.muted - 1 })

/-- The text of an alias; other identifiers and slots that are not bound have none. -/
def aliasText (name : Bytes) : Engine Bytes := do
  let s ← get
  match s.table.lookup? name with
  | none => return []
  | some (i, id) =>
      return if !id.role.isAlias || (i < maxArgs && !s.isBound i) then [] else id.value.toBytes

def scriptPath (s : Interp) (path : Bytes) : Bytes :=
  if !Path.isAbsolute path && !s.dir.isEmpty then Path.join s.dir path else path

/-- The content of a script file, with its path. -/
def readScript (path : Bytes) : Engine (Except FileError (Bytes × Bytes)) := do
  let s ← get
  let path := scriptPath s path
  match s.disk.read path with
  | .error e =>
      set { s with missed := path :: s.missed }
      return .error e
  | .ok src => return .ok (src, path)

def runScript (k : Runner) (path : Bytes) : Engine (Except FileError Value) := do
  match ← readScript path with
  | .error e => return .error e
  | .ok (src, path) => return .ok (← runText k src path)

/-- Runs a script file and gives 1, or 0 if it cannot be read. -/
def execScript (k : Runner) (args : List Value) : Engine Value := do
  let path := (← arg args 0).toBytes
  match ← runScript k path with
  | .ok _ => return .int 1
  | .error _ =>
      if (← arg args 1).toInt != 0 then warn (utf8 "could not read " ++ Quoted.text path)
      return .int 0

/-- Finds the first element of a list for which code is true, and gives its number or -1. -/
def findElement (k : Runner) (args : List Value) : Engine Value := do
  match ← loopVariable? (← arg args 0) with
  | none => return .int (-1)
  | some i =>
      match ← listLoop i (← arg args 1).toBytes (do holds k (← arg args 2)) with
      | some n => return .int (Int32.ofNat n)
      | none => return .int (-1)

/-- Runs code for every element of a list. -/
def eachElement (k : Runner) (args : List Value) : Engine Value := do
  match ← loopVariable? (← arg args 0) with
  | none => return .null
  | some i =>
      let list := (← arg args 1).toBytes
      let _ ← listLoop i list do
        let _ ← runValue k (← arg args 2)
        return false
      return .null

/-- The part of a text or list that offset and length arguments ask for: a length counts only if it
was given. -/
def partOf {α : Type} (args : List Value) (part : Bytes → Int32 → Option Int32 → α) :
    Engine α := do
  let s := (← arg args 0).toBytes
  let start := (← arg args 1).toInt
  let isGiven := 3 ≤ (← arg args 3).toInt
  let length ← argIf isGiven args 2
  return part s start (length.map Value.toInt)

/-- A command of the library. -/
def apply (k : Runner) (b : Builtin) (args : List Value) : Engine Value := do
  match b with
  | .loop form =>
      countedLoop k form args
      return .null
  | .while =>
      let condition ← arg args 0
      repeatWhile (holds k condition) (do let _ ← runValue k (← arg args 1)) (← get).patience
      return .null
  | .choose => if (← arg args 0).toBool then arg args 1 else arg args 2
  | .cond => firstHolding k args
  | .cases kind =>
      let v ← arg args 0
      firstMatching k (CaseKind.matches kind v) args.tail
  | .push => shadowed k args
  | .nodebug => silenced (do runValue k (← arg args 0))
  | .alias =>
      let name := (← arg args 0).toBytes
      assignNamed k name (← arg args 1).settle
      return .null
  | .getAlias => return .ofBytes (← aliasText (← arg args 0).toBytes)
  | .identExists =>
      let name := (← arg args 0).toBytes
      return .ofBool ((← get).table.find? name).isSome
  | .resetVar =>
      resetNamed k (← arg args 0).toBytes
      return .null
  | .intFold op => return .int (op.fold (args.map Value.toInt))
  | .complement => return .int (~~~(← arg args 0).toInt)
  | .floatFold op => return .float (op.fold (args.map Value.toSingle))
  | .intExtreme greatest =>
      let better (x best : Int32) : Bool := if greatest then x > best else x < best
      return .int (Builtin.extreme better 0 (args.map Value.toInt))
  | .floatExtreme greatest =>
      let better (x best : Single) : Bool := if greatest then best.lt x else x.lt best
      return .float (Builtin.extreme better Single.zero (args.map Value.toSingle))
  | .intAbs => return .int (Builtin.intAbsolute (← arg args 0).toInt)
  | .floatAbs => return .float (← arg args 0).toSingle.abs
  | .intCompare r => return .ofBool (Relation.chain r.onInts 0 (args.map Value.toInt))
  | .floatCompare r =>
      return .ofBool (Relation.chain r.onFloats Single.zero (args.map Value.toSingle))
  | .textCompare r => return .ofBool (Relation.chain r.onTexts [] (args.map Value.toBytes))
  | .concat spaced => return .ofBytes (Value.join spaced args)
  | .format => return .ofBytes (match args with
    | [] => []
    | v :: _ => Texts.format args v.toBytes)
  | .textLength => return .int (Int32.ofNat (← arg args 0).toBytes.length)
  | .substring => return .ofBytes (← partOf args Texts.substring)
  | .textFind => return .int (Texts.find (← arg args 0).toBytes (← arg args 1).toBytes)
  | .textReplace =>
      let p := (← arg args 1).toBytes
      if p.isEmpty then return .ofBytes (← arg args 0).toBytes
      else return .ofBytes (Bytes.replace p (← arg args 2).toBytes (← arg args 0).toBytes)
  | .small => return .ofBytes (Utf8.toSmall (← arg args 0).toBytes)
  | .capital => return .ofBytes (Utf8.toCapital (← arg args 0).toBytes)
  | .escape => return .ofBytes (Syntax.escape (← arg args 0).toBytes)
  | .unescape => return .ofBytes (Syntax.unescape (← arg args 0).toBytes)
  | .toHex => return .ofBytes (Texts.hex (← arg args 0).toInt (← arg args 1).toInt)
  | .listLength => return .int (Int32.ofNat (Syntax.elements (← arg args 0).toBytes).length)
  | .listAt => match args with
    | [] => return .null
    | v :: places =>
        return .ofBytes (Texts.elementAt ⟨v.toBytes, false⟩ (places.map Value.toInt))
  | .sublist => return .ofBytes (← partOf args fun s skip count =>
      Syntax.sublist s skip.toInt.toNat (count.map (·.toInt.toNat)))
  | .listFind => findElement k args
  | .loopList => eachElement k args
  | .echo =>
      echo (← arg args 0).toBytes
      return .null
  | .error =>
      warn (← arg args 0).toBytes
      return .null
  | .exec => execScript k args

/-- A control word that is called through a computed name or looked up. -/
def applyControl (k : Runner) (c : Control) (args : List Value) : Engine Value := do
  match c with
  | .local => return .null
  | .run => runValue k (← arg args 0)
  | .runOuter =>
      let v ← arg args 0
      withOuterArgs (runValue k v)
  | .branch =>
      if (← arg args 0).toBool then runValue k (← arg args 1) else runValue k (← arg args 2)
  | .result => arg args 0
  | .not => return .ofBool !(← arg args 0).toBool
  | .and => if args.isEmpty then return .ofBool true else firstBeing k false .null args
  | .or => if args.isEmpty then return .ofBool false else firstBeing k true .null args

end ConsoleScript.Library
