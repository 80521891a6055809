import ConsoleScript.Bytecode.Block

/-!
Faults end an execution: they report a state that compiled code never reaches, such as an operand
stack that underflows, or come from a command of the host. A fault has a cause and, if it was found
in a named block, the place of the instruction.
-/

namespace ConsoleScript

open Bytecode (DecodeError)

/-- What went wrong. -/
inductive Fault.Cause where
  | stackOverflow
  | stackUnderflow
  /-- An instruction takes more operands than there are. -/
  | stackShort (need have' : Nat)
  | identOutOfRange (index : Nat)
  | ranOffEnd
  | invalidInstruction (name : Bytes)
  | decode (e : DecodeError)
  | noExit
  /-- A binding was to be restored, but the identifier has none saved. -/
  | noSavedBinding (name : Bytes)
  /-- A command of the host gave up. -/
  | host (message : Bytes)
  /-- An operand, argument or variable is not of the kind that the instruction needs. -/
  | badAccess
deriving DecidableEq, Repr

def Fault.Cause.message : Fault.Cause → Bytes
  | .stackOverflow => utf8 "operand stack overflow"
  | .stackUnderflow => utf8 "operand stack underflow"
  | .stackShort need have' =>
      utf8 "operand stack underflow: need " ++ Bytes.ofNat need ++ utf8 ", have " ++
        Bytes.ofNat have'
  | .identOutOfRange index =>
      utf8 "identifier index " ++ Bytes.ofNat index ++ utf8 " out of range"
  | .ranOffEnd => utf8 "ran off the end of the block"
  | .invalidInstruction name => utf8 "invalid instruction " ++ name
  | .decode e => e.message
  | .noExit => utf8 "block has no EXIT"
  | .noSavedBinding name => utf8 "binding stack of " ++ name ++ utf8 " is empty"
  | .host message => message
  | .badAccess => utf8 "runtime error"

/-- A fault with the label of its block and the position in it; an empty label is no place. -/
structure Fault where
  cause : Fault.Cause
  block : Bytes := []
  pc : Int := 0
deriving DecidableEq, Repr

namespace Fault

/-- A bad access has a text of its own; other causes are shown with their place. -/
def message (f : Fault) : Bytes :=
  if f.cause = .badAccess then f.cause.message
  else
    utf8 "cubescript: " ++ f.cause.message ++
      if f.block.isEmpty then []
      else utf8 " (" ++ f.block ++ utf8 " @" ++ Bytes.ofIntHexPadded 4 f.pc ++ utf8 ")"

end Fault

end ConsoleScript
