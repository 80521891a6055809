import ConsoleScript.Ident

/-!
Arithmetic and comparison of the command library. An operator folds its arguments from the left;
with one argument its unary form applies, and with none it works on its unit. A comparison holds if
it holds for every pair of neighbours; a single argument is compared with nothing, that is zero or
the empty text.
-/

namespace ConsoleScript

namespace IntOp

/-- The value that stands for no arguments. -/
def unit : IntOp → Int32
  | .mul => 1
  | _ => 0

/-- The operator on one argument. -/
def unary : IntOp → Int32 → Int32
  | .sub => fun a => -a
  | .xor => fun a => ~~~a
  | _ => fun a => a

/-- The operator on two arguments. Dividing by zero gives zero, and so does shifting all bits out
to the left; a shift to the right leaves the sign. -/
def apply : IntOp → Int32 → Int32 → Int32
  | .add, a, b => a + b
  | .mul, a, b => a * b
  | .sub, a, b => a - b
  | .xor, a, b => a ^^^ b
  | .and, a, b => a &&& b
  | .or, a, b => a ||| b
  | .xorNot, a, b => a ^^^ ~~~b
  | .andNot, a, b => a &&& ~~~b
  | .orNot, a, b => a ||| ~~~b
  | .shiftLeft, a, b => if 32 ≤ b then 0 else a <<< max b 0
  | .shiftRight, a, b => a >>> min (max b 0) 31
  | .div, a, b => if b == 0 then 0 else a / b
  | .mod, a, b => if b == 0 then 0 else a % b

/-- The operator on any number of arguments. -/
def fold (op : IntOp) : List Int32 → Int32
  | [] => op.unary op.unit
  | [a] => op.unary a
  | a :: rest => rest.foldl op.apply a

end IntOp

namespace FloatOp

/-- The value that stands for no arguments. -/
def unit : FloatOp → Single
  | .mul => Single.ofInt32 1
  | _ => Single.zero

/-- The operator on one argument. -/
def unary : FloatOp → Single → Single
  | .sub => Single.neg
  | _ => id

/-- The operator on two arguments; dividing by zero gives zero. -/
def apply : FloatOp → Single → Single → Single
  | .add, a, b => a.add b
  | .mul, a, b => a.mul b
  | .sub, a, b => a.sub b
  | .div, a, b => if b.isTrue then a.div b else Single.zero
  | .mod, a, b => if b.isTrue then a.rem b else Single.zero
  | .pow, a, b => a.pow b

/-- The operator on any number of arguments. -/
def fold (op : FloatOp) : List Single → Single
  | [] => op.unary op.unit
  | [a] => op.unary a
  | a :: rest => rest.foldl op.apply a

end FloatOp

namespace Relation

def onInts : Relation → Int32 → Int32 → Bool
  | .eq, a, b => a == b
  | .ne, a, b => a != b
  | .lt, a, b => a < b
  | .gt, a, b => b < a
  | .le, a, b => a ≤ b
  | .ge, a, b => b ≤ a

def onFloats : Relation → Single → Single → Bool
  | .eq, a, b => a.eq b
  | .ne, a, b => !a.eq b
  | .lt, a, b => a.lt b
  | .gt, a, b => b.lt a
  | .le, a, b => a.le b
  | .ge, a, b => b.le a

/-- Texts are compared byte by byte. -/
def onTexts : Relation → Bytes → Bytes → Bool
  | .eq, a, b => Bytes.compare a b == .eq
  | .ne, a, b => Bytes.compare a b != .eq
  | .lt, a, b => Bytes.compare a b == .lt
  | .gt, a, b => Bytes.compare a b == .gt
  | .le, a, b => Bytes.compare a b != .gt
  | .ge, a, b => Bytes.compare a b != .lt

/-- Whether every pair of neighbours is in a relation. -/
def chain {α : Type} (r : α → α → Bool) (nothing : α) : List α → Bool
  | [] => r nothing nothing
  | [a] => r a nothing
  | a :: rest => (List.zip (a :: rest) rest).all fun (a, b) => r a b

end Relation

namespace Builtin

/-- The least or greatest value; the first of equals, and `nothing` if there are none. -/
def extreme {α : Type} (better : α → α → Bool) (nothing : α) : List α → α
  | [] => nothing
  | a :: rest => rest.foldl (fun best x => if better x best then x else best) a

/-- The absolute value; the least integer has none and stays. -/
def intAbsolute (v : Int32) : Int32 := if v < 0 then -v else v

end Builtin

end ConsoleScript
