import PackageMigration.Bytes
/-
  Paths as they are written. A path is a byte string whose parts are separated by slashes; empty parts
  and the part `.` name nothing. Nothing here looks at what a path leads to.

  * `Path.parent?`: the path without its last part.
  * `Path.fileName?`: the last part, if it is a name.
  * `Path.isUsable`: whether a path can lead anywhere at all.
  * `Path.join`: the path of a name in a directory; `Path.hasRoom`: whether a name of some length fits.
-/
namespace PackageMigration.Path

/-- The part `.`, the directory itself. -/
def here : Bytes := [Byte.dot]

/-- The part `..`, the directory above. -/
def above : Bytes := [Byte.dot, Byte.dot]

/-- The part names nothing: it is empty or `.`. -/
def isIdle (part : Bytes) : Bool := part == [] || part == here

/-- The most bytes of a part. -/
def longestPart : Nat := 255

/-- The most bytes of a path. -/
def longest : Nat := 4095

/-- The path can be looked up: it is short enough and holds no zero byte. -/
def isUsable (path : Bytes) : Bool := path.length ≤ longest && !path.contains 0

/-- The start of a path that is not one of its parts: the slash of an absolute path, or the full stop
of a path that begins with the part `.`. -/
def anchor (path : Bytes) : Bytes :=
  match Bytes.splitOn Byte.slash path with
  | part :: _ => if part = here then here else if path.head? = some Byte.slash then [Byte.slash] else []
  | [] => []

/-- The parts behind the anchor, the last one first and without idle parts after it. -/
def partsBack (path : Bytes) : List Bytes :=
  (Bytes.splitOn Byte.slash (path.drop (anchor path).length)).reverse.dropWhile isIdle

/-- The path without its last part. The root and the empty path have none. -/
def parent? (path : Bytes) : Option Bytes :=
  match partsBack path with
  | _ :: rest =>
    some (anchor path ++ [Byte.slash].intercalate (rest.dropWhile isIdle).reverse)
  | [] => if anchor path = here then some [] else none

/-- The last part of a path, unless it is `..`. -/
def fileName? (path : Bytes) : Option Bytes :=
  (partsBack path).head?.filter (· != above)

/-- The path of a name in a directory. -/
def join (directory name : Bytes) : Bytes :=
  if directory = [] ∨ directory.getLast? = some Byte.slash then directory ++ name
  else directory ++ Byte.slash :: name

/-- A name of this many bytes fits into a directory: the path of the two is short enough. -/
def hasRoom (directory : Bytes) (length : Nat) : Bool := (join directory []).length + length ≤ longest

example : parent? (bytes "a//b/./c/") = some (bytes "a//b") := by decide
example : parent? (bytes "./a") = some (bytes ".") ∧ parent? (bytes "a") = some [] := by decide
example : parent? (bytes "/a") = some (bytes "/") ∧ parent? (bytes "/") = none := by decide
example : fileName? (bytes "a/b.jar/.") = some (bytes "b.jar") ∧ fileName? (bytes "a/..") = none := by
  decide

end PackageMigration.Path
