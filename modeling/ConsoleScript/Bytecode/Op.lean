/-!
Operation codes of the word stream. The numbering is part of the stored format: the code of an
operation is its place in the list below. Each operation has a name for listings, a layout of its
operand, and either uses its return tag or does not.
-/

namespace ConsoleScript.Bytecode

/-- An operation. -/
inductive Op where
  /-- First word of every stream. -/
  | start
  /-- Header of a block literal: the position of its body. -/
  | offset
  /-- Makes null the result. -/
  | null
  /-- Makes 1 the result. -/
  | yes
  /-- Makes 0 the result. -/
  | no
  /-- Pops a value and makes its negation the result. -/
  | not
  /-- Pops and drops a value. -/
  | pop
  /-- Runs the code up to the matching exit and pushes its result. -/
  | enter
  /-- Runs the code up to the matching exit and keeps its result. -/
  | enterResult
  /-- Ends a run. -/
  | exit
  /-- Moves the result to the stack. -/
  | resultArg
  /-- Pushes the literal in the following words. -/
  | val
  /-- Pushes the literal in the operand. -/
  | valInline
  /-- Pushes a copy of the top. -/
  | dup
  /-- Pushes the text in the following words as a view. -/
  | view
  /-- Reserved. -/
  | bool
  /-- Pushes the code that follows and passes over it. -/
  | block
  /-- Pushes code that does nothing. -/
  | empty
  /-- Compiles the top. -/
  | compile
  /-- Compiles the top if it is a text; an empty text becomes null. -/
  | cond
  /-- Converts the top. -/
  | force
  /-- Pops a value into the result. -/
  | result
  /-- Pushes an identifier. -/
  | ident
  /-- Replaces a name by its identifier. -/
  | identNamed
  /-- Pushes an argument slot and binds it. -/
  | identArg
  /-- Calls a command with the number of arguments it declares. -/
  | com
  /-- As com, with 1 as a last argument. -/
  | comPressed
  /-- Calls a command with its arguments joined. -/
  | comJoined
  /-- Calls a command with all arguments. -/
  | comAll
  /-- Joins values with blanks. -/
  | conc
  /-- Joins values. -/
  | concWord
  /-- Joins values into the result. -/
  | concResult
  /-- Reserved. -/
  | down
  /-- Pushes a text variable. -/
  | textVar
  /-- Pushes a text variable as a view. -/
  | textVarView
  /-- Pops into a text variable. -/
  | setTextVar
  /-- Pushes an integer variable. -/
  | intVar
  /-- Pops into an integer variable. -/
  | setIntVar
  /-- Pops two bytes into an integer variable. -/
  | setIntVar2
  /-- Pops three bytes into an integer variable. -/
  | setIntVar3
  /-- Pushes a float variable. -/
  | floatVar
  /-- Pops into a float variable. -/
  | setFloatVar
  /-- Pushes the value of an alias. -/
  | lookup
  /-- Replaces a name by its value. -/
  | lookupNamed
  /-- Pushes the value of an argument slot. -/
  | lookupArg
  /-- As lookup, as a view. -/
  | lookupView
  /-- As lookupNamed, as a view. -/
  | lookupViewNamed
  /-- As lookupArg, as a view. -/
  | lookupViewArg
  /-- Pops into an alias. -/
  | alias
  /-- Pops a value and a name and assigns. -/
  | aliasNamed
  /-- Pops into an argument slot. -/
  | aliasArg
  /-- Calls an alias. -/
  | call
  /-- Calls what a name on the stack stands for. -/
  | callNamed
  /-- Calls an argument slot if it is bound. -/
  | callArg
  /-- Prints a variable. -/
  | print
  /-- Shadows identifiers until the run ends. -/
  | local
  /-- Pops code and runs it. -/
  | run
  /-- Pops code and runs it with the arguments of the caller. -/
  | runOuter
  /-- Jumps forward. -/
  | jump
  /-- Pops a value and jumps if it is true. -/
  | jumpTrue
  /-- Pops a value and jumps if it is false. -/
  | jumpFalse
  /-- Pops a value, running it if it is code, into the result and jumps if true. -/
  | jumpResultTrue
  /-- As jumpResultTrue, but jumps if false. -/
  | jumpResultFalse
deriving DecidableEq, Repr, Inhabited

/-- How the upper bits of a word, and any words after it, are read. -/
inductive Operand where
  | none
  /-- An identifier index. -/
  | ident
  /-- A number. -/
  | count
  /-- A number of arguments in five bits, below an identifier index. -/
  | call
  /-- The number of words to jump over. -/
  | jump
  /-- A literal, whose shape depends on the return tag. -/
  | literal
  /-- The length of a text in the following words. -/
  | bytes
  /-- The number of words of the block that follows. -/
  | span
deriving DecidableEq, Repr

/-- What listings and checks know of an operation. -/
structure Op.Info where
  name : String
  operand : Operand
  /-- The return tag has a meaning. -/
  returns : Bool

namespace Op

def info : Op → Info
  | .start => ⟨"START", .none, false⟩
  | .offset => ⟨"OFFSET", .count, false⟩
  | .null => ⟨"NULL", .none, true⟩
  | .yes => ⟨"TRUE", .none, true⟩
  | .no => ⟨"FALSE", .none, true⟩
  | .not => ⟨"NOT", .none, true⟩
  | .pop => ⟨"POP", .none, false⟩
  | .enter => ⟨"ENTER", .none, false⟩
  | .enterResult => ⟨"ENTER_RESULT", .none, false⟩
  | .exit => ⟨"EXIT", .none, true⟩
  | .resultArg => ⟨"RESULT_ARG", .none, true⟩
  | .val => ⟨"VAL", .literal, true⟩
  | .valInline => ⟨"VALI", .literal, true⟩
  | .dup => ⟨"DUP", .none, true⟩
  | .view => ⟨"MACRO", .bytes, false⟩
  | .bool => ⟨"BOOL", .none, false⟩
  | .block => ⟨"BLOCK", .span, false⟩
  | .empty => ⟨"EMPTY", .none, true⟩
  | .compile => ⟨"COMPILE", .none, false⟩
  | .cond => ⟨"COND", .none, false⟩
  | .force => ⟨"FORCE", .none, true⟩
  | .result => ⟨"RESULT", .none, true⟩
  | .ident => ⟨"IDENT", .ident, false⟩
  | .identNamed => ⟨"IDENTU", .none, false⟩
  | .identArg => ⟨"IDENTARG", .ident, false⟩
  | .com => ⟨"COM", .ident, true⟩
  | .comPressed => ⟨"COMD", .ident, true⟩
  | .comJoined => ⟨"COMC", .call, true⟩
  | .comAll => ⟨"COMV", .call, true⟩
  | .conc => ⟨"CONC", .count, true⟩
  | .concWord => ⟨"CONCW", .count, true⟩
  | .concResult => ⟨"CONCM", .count, true⟩
  | .down => ⟨"DOWN", .none, false⟩
  | .textVar => ⟨"SVAR", .ident, true⟩
  | .textVarView => ⟨"SVARM", .ident, false⟩
  | .setTextVar => ⟨"SVAR1", .ident, false⟩
  | .intVar => ⟨"IVAR", .ident, true⟩
  | .setIntVar => ⟨"IVAR1", .ident, false⟩
  | .setIntVar2 => ⟨"IVAR2", .ident, false⟩
  | .setIntVar3 => ⟨"IVAR3", .ident, false⟩
  | .floatVar => ⟨"FVAR", .ident, true⟩
  | .setFloatVar => ⟨"FVAR1", .ident, false⟩
  | .lookup => ⟨"LOOKUP", .ident, true⟩
  | .lookupNamed => ⟨"LOOKUPU", .none, true⟩
  | .lookupArg => ⟨"LOOKUPARG", .ident, true⟩
  | .lookupView => ⟨"LOOKUPM", .ident, true⟩
  | .lookupViewNamed => ⟨"LOOKUPMU", .none, true⟩
  | .lookupViewArg => ⟨"LOOKUPMARG", .ident, true⟩
  | .alias => ⟨"ALIAS", .ident, false⟩
  | .aliasNamed => ⟨"ALIASU", .none, false⟩
  | .aliasArg => ⟨"ALIASARG", .ident, false⟩
  | .call => ⟨"CALL", .call, true⟩
  | .callNamed => ⟨"CALLU", .count, true⟩
  | .callArg => ⟨"CALLARG", .call, true⟩
  | .print => ⟨"PRINT", .ident, false⟩
  | .local => ⟨"LOCAL", .count, false⟩
  | .run => ⟨"DO", .none, true⟩
  | .runOuter => ⟨"DOARGS", .none, true⟩
  | .jump => ⟨"JUMP", .jump, false⟩
  | .jumpTrue => ⟨"JUMP_TRUE", .jump, false⟩
  | .jumpFalse => ⟨"JUMP_FALSE", .jump, false⟩
  | .jumpResultTrue => ⟨"JUMP_RESULT_TRUE", .jump, false⟩
  | .jumpResultFalse => ⟨"JUMP_RESULT_FALSE", .jump, false⟩

/-- All operations in the order of their codes. -/
def all : Array Op := #[
  .start, .offset, .null, .yes, .no, .not, .pop, .enter, .enterResult, .exit, .resultArg, .val,
  .valInline, .dup, .view, .bool, .block, .empty, .compile, .cond, .force, .result, .ident,
  .identNamed, .identArg, .com, .comPressed, .comJoined, .comAll, .conc, .concWord, .concResult,
  .down, .textVar, .textVarView, .setTextVar, .intVar, .setIntVar, .setIntVar2, .setIntVar3,
  .floatVar, .setFloatVar, .lookup, .lookupNamed, .lookupArg, .lookupView, .lookupViewNamed,
  .lookupViewArg, .alias, .aliasNamed, .aliasArg, .call, .callNamed, .callArg, .print, .local,
  .run, .runOuter, .jump, .jumpTrue, .jumpFalse, .jumpResultTrue, .jumpResultFalse]

/-- The number of operations. -/
def count : Nat := all.size

def code (op : Op) : UInt32 := UInt32.ofNat op.ctorIdx

def ofCode? (c : UInt32) : Option Op := all[c.toNat]?

def isJump : Op → Bool
  | .jump | .jumpTrue | .jumpFalse | .jumpResultTrue | .jumpResultFalse => true
  | _ => false

/-- A call of a command or an alias. -/
def isCall : Op → Bool
  | .com | .comPressed | .comJoined | .comAll | .call | .callNamed | .callArg => true
  | _ => false

end Op

end ConsoleScript.Bytecode
