import ConsoleScript.Ident

/-!
The names and parameters of the commands in the library, in the order of their registration.
-/

namespace ConsoleScript.Library

/-- A command of the library. -/
structure Item where
  name : String
  signature : Signature
  builtin : Builtin

/-- A loop over a counted variable. -/
def loopItem (name : String) (offset step condition : Bool) : Item :=
  { name
    signature := [.ident] ++ (if offset then [.int] else []) ++ (if step then [.int] else []) ++
      [.int] ++ (if condition then [.code] else []) ++ [.code]
    builtin := .loop ⟨offset, step, condition⟩ }

/-- A command that takes any number of one kind of argument. -/
def manyItem (name : String) (letter : Letter) (builtin : Builtin) : Item :=
  ⟨name, [letter, .again 1, .all], builtin⟩

def control : List Item :=
  [loopItem "loop" false false false,
    loopItem "loop+" true false false,
    loopItem "loop*" false true false,
    loopItem "loop+*" true true false,
    loopItem "loopwhile" false false true,
    loopItem "loopwhile+" true false true,
    loopItem "loopwhile*" false true true,
    loopItem "loopwhile+*" true true true,
    ⟨"while", [.code, .code], .while⟩,
    ⟨"?", [.any, .anyOrNull, .anyOrNull], .choose⟩,
    ⟨"cond", [.code, .code, .again 2, .all], .cond⟩,
    ⟨"case", [.int, .any, .code, .again 2, .all], .cases .int⟩,
    ⟨"casef", [.float, .any, .code, .again 2, .all], .cases .float⟩,
    ⟨"cases", [.text, .any, .code, .again 2, .all], .cases .text⟩,
    ⟨"push", [.ident, .anyOrNull, .code], .push⟩,
    ⟨"nodebug", [.code], .nodebug⟩]

def identifiers : List Item :=
  [⟨"alias", [.text, .anyOrNull], .alias⟩,
    ⟨"getalias", [.text], .getAlias⟩,
    ⟨"identexists", [.text], .identExists⟩,
    ⟨"resetvar", [.text], .resetVar⟩]

def arithmetic : List Item :=
  [manyItem "+" .int (.intFold .add),
    manyItem "*" .int (.intFold .mul),
    manyItem "-" .int (.intFold .sub),
    manyItem "^" .int (.intFold .xor),
    manyItem "&" .int (.intFold .and),
    manyItem "|" .int (.intFold .or),
    manyItem "^~" .int (.intFold .xorNot),
    manyItem "&~" .int (.intFold .andNot),
    manyItem "|~" .int (.intFold .orNot),
    manyItem "<<" .int (.intFold .shiftLeft),
    manyItem ">>" .int (.intFold .shiftRight),
    manyItem "div" .int (.intFold .div),
    manyItem "mod" .int (.intFold .mod),
    ⟨"~", [.int], .complement⟩,
    manyItem "+f" .float (.floatFold .add),
    manyItem "*f" .float (.floatFold .mul),
    manyItem "-f" .float (.floatFold .sub),
    manyItem "divf" .float (.floatFold .div),
    manyItem "modf" .float (.floatFold .mod),
    manyItem "pow" .float (.floatFold .pow),
    manyItem "min" .int (.intExtreme false),
    manyItem "max" .int (.intExtreme true),
    manyItem "minf" .float (.floatExtreme false),
    manyItem "maxf" .float (.floatExtreme true),
    ⟨"abs", [.int], .intAbs⟩,
    ⟨"absf", [.float], .floatAbs⟩]

def comparisons : List Item :=
  [manyItem "=" .int (.intCompare .eq),
    manyItem "!=" .int (.intCompare .ne),
    manyItem "<" .int (.intCompare .lt),
    manyItem ">" .int (.intCompare .gt),
    manyItem "<=" .int (.intCompare .le),
    manyItem ">=" .int (.intCompare .ge),
    manyItem "=f" .float (.floatCompare .eq),
    manyItem "!=f" .float (.floatCompare .ne),
    manyItem "<f" .float (.floatCompare .lt),
    manyItem ">f" .float (.floatCompare .gt),
    manyItem "<=f" .float (.floatCompare .le),
    manyItem ">=f" .float (.floatCompare .ge),
    manyItem "=s" .text (.textCompare .eq),
    manyItem "!=s" .text (.textCompare .ne),
    manyItem "<s" .text (.textCompare .lt),
    manyItem ">s" .text (.textCompare .gt),
    manyItem "<=s" .text (.textCompare .le),
    manyItem ">=s" .text (.textCompare .ge)]

def texts : List Item :=
  [⟨"concat", [.all], .concat true⟩,
    ⟨"concatword", [.all], .concat false⟩,
    ⟨"format", [.all], .format⟩,
    ⟨"strlen", [.text], .textLength⟩,
    ⟨"substr", [.text, .int, .int, .count], .substring⟩,
    ⟨"strstr", [.text, .text], .textFind⟩,
    ⟨"strreplace", [.text, .text, .text], .textReplace⟩,
    ⟨"strlower", [.text], .small⟩,
    ⟨"strupper", [.text], .capital⟩,
    ⟨"escape", [.text], .escape⟩,
    ⟨"unescape", [.text], .unescape⟩,
    ⟨"tohex", [.int, .int], .toHex⟩]

def lists : List Item :=
  [⟨"listlen", [.text], .listLength⟩,
    ⟨"at", [.text, .int, .again 1, .all], .listAt⟩,
    ⟨"sublist", [.text, .int, .int, .count], .sublist⟩,
    ⟨"listfind", [.ident, .text, .code], .listFind⟩,
    ⟨"looplist", [.ident, .text, .code], .loopList⟩]

def files : List Item :=
  [⟨"echo", [.joined], .echo⟩,
    ⟨"error", [.joined], .error⟩,
    ⟨"exec", [.text, .intOrLeast], .exec⟩]

/-- All commands of the library. -/
def items : List Item :=
  control ++ identifiers ++ arithmetic ++ comparisons ++ texts ++ lists ++ files

def Item.toIdent (i : Item) : Ident :=
  { name := utf8 i.name, role := .command i.signature (.builtin i.builtin) }

end ConsoleScript.Library
