import ConsoleScript.Text.Bytes

/-!
File paths: components between slashes. A path is absolute if it begins with a slash. Cleaning a
path drops empty components and dots and lets each pair of dots take away the component before it,
so that two spellings of one place become one text.
-/

namespace ConsoleScript.Path

def slash : UInt8 := 0x2F

def dot : Bytes := [0x2E]

def dots : Bytes := [0x2E, 0x2E]

/-- The pieces of a path between its slashes. -/
def pieces : Bytes → List Bytes
  | [] => [[]]
  | c :: s =>
      if c == slash then [] :: pieces s
      else match pieces s with
        | [] => [[c]]
        | p :: rest => (c :: p) :: rest

/-- The pieces that name something. -/
def components (s : Bytes) : List Bytes := (pieces s).filter fun p => p != [] && p != dot

/-- Whether a path ends so that it can only name a folder. -/
def namesFolder (s : Bytes) : Bool := match (pieces s).getLast? with
  | some p => p == [] || p == dot || p == dots
  | none => false

def isAbsolute : Bytes → Bool
  | c :: _ => c == slash
  | [] => false

/-- Lets pairs of dots take away the components before them. The first argument holds the
components so far, the last one first; above the root there is only the root. -/
def reduce (rooted : Bool) : List Bytes → List Bytes → List Bytes
  | kept, [] => kept.reverse
  | kept, p :: rest =>
      if p != dots then reduce rooted (p :: kept) rest
      else match kept with
        | [] => if rooted then reduce rooted [] rest else reduce rooted [dots] rest
        | q :: outer =>
            if q == dots then reduce rooted (dots :: kept) rest else reduce rooted outer rest

/-- The shortest spelling of a path. -/
def clean (s : Bytes) : Bytes :=
  let text := Bytes.joinWith [slash] (reduce (isAbsolute s) [] (components s))
  if isAbsolute s then slash :: text else if text.isEmpty then dot else text

/-- One path behind another. -/
def join (dir s : Bytes) : Bytes :=
  if !dir.isEmpty then clean (dir ++ [slash] ++ s)
  else if !s.isEmpty then clean s
  else []

/-- The path as seen from a directory. -/
def absolute (cwd s : Bytes) : Bytes := if isAbsolute s then clean s else join cwd s

/-- The last component; of the root it is a slash, of nothing a dot. -/
def base (s : Bytes) : Bytes :=
  if s.isEmpty then dot
  else match ((pieces s).filter (!·.isEmpty)).getLast? with
    | some p => p
    | none => [slash]

/-- What a path is in: all up to its last slash. -/
def parent (s : Bytes) : Bytes :=
  clean ((s.reverse.dropWhile (· != slash)).reverse)

end ConsoleScript.Path
