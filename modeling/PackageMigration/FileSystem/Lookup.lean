import PackageMigration.FileSystem.Basic
/-
  Where paths lead. Every part of a path but the last has to lead to a directory, and so has the last
  one if a slash or a full stop follows it.

  * `FileSystem.walk?`: the location that parts lead to.
  * `FileSystem.locate?`: the node of a path; `read?`, `isDirectory`.
  * `FileSystem.resolve?`: the node of a path, by its absolute path; `sameFile`.
  * `FileSystem.site?`: where a new node would stand.
-/
namespace PackageMigration

/-- Why a path leads nowhere. -/
inductive FileSystem.Fault where
  /-- A part of the path is not there. -/
  | missing
  /-- Something else stands where a part of the path should. -/
  | occupied
  /-- The path or a part of it is too long, or the path holds a zero byte. -/
  | unusable
  deriving DecidableEq, Repr

namespace FileSystem

/-- The location that parts lead to from a location. There need not be a node. -/
def walk? (fs : FileSystem) : Location → List Bytes → Except Fault Location
  | l, [] => .ok l
  | l, part :: parts =>
    match fs.node? l with
    | none => .error .missing
    | some (.file _) => .error .occupied
    | some .directory =>
      if Path.isIdle part then fs.walk? l parts
      else if part = Path.above then fs.walk? l.dropLast parts
      else if Path.longestPart < part.length then .error .unusable
      else fs.walk? (l ++ [part]) parts

/-- Where a path starts. -/
def start (fs : FileSystem) (path : Bytes) : Location :=
  if path.head? = some Byte.slash then [] else fs.here

/-- The path itself if it is absolute, or else behind the path of the working directory. -/
def absolute (fs : FileSystem) (path : Bytes) : Bytes :=
  if path.head? = some Byte.slash then path else Path.join fs.here.path path

/-- The location of the node that the parts of a path lead to one after the other. -/
def reach? (fs : FileSystem) (path : Bytes) : Option Location :=
  if path = [] then none
  else
    match fs.walk? (fs.start path) (Bytes.splitOn Byte.slash path) with
    | .ok l => if (fs.node? l).isSome then some l else none
    | .error _ => none

/-- The location of the node that a path leads to, looked up at once. -/
def locate? (fs : FileSystem) (path : Bytes) : Option Location :=
  if Path.isUsable path then fs.reach? path else none

/-- The absolute path that a path comes to, with a slash at its end if an idle part asks for a
directory there. -/
def resolved (path : Bytes) (l : Location) : Bytes :=
  if (Bytes.splitOn Byte.slash path).getLast?.any Path.isIdle then Path.join l.path [] else l.path

/-- The location of the node that a path leads to, looked up part by part. Its absolute path has to be
usable, not the path itself. -/
def resolve? (fs : FileSystem) (path : Bytes) : Option Location :=
  (fs.reach? path).filter fun l => Path.isUsable (resolved path l)

/-- The node that a path leads to. -/
def find? (fs : FileSystem) (path : Bytes) : Option Node := (fs.locate? path).bind fs.node?

/-- The content of the file that a path leads to. -/
def read? (fs : FileSystem) (path : Bytes) : Option Bytes :=
  match fs.find? path with
  | some (.file content) => some content
  | _ => none

def isDirectory (fs : FileSystem) (path : Bytes) : Bool := fs.find? path == some .directory

/-- The path leads to a node. -/
def hasNode (fs : FileSystem) (path : Bytes) : Bool := (fs.find? path).isSome

/-- Both paths lead to the same node. -/
def sameFile (fs : FileSystem) (a b : Bytes) : Bool :=
  match fs.resolve? a, fs.resolve? b with
  | some a, some b => a == b
  | _, _ => false

/-- The directory in which the last part of a path stands, and that part. Slashes at the end do not
count. A path of nothing but slashes has no last part. -/
def entrance? (fs : FileSystem) (path : Bytes) : Except Fault (Location × Bytes) :=
  if !Path.isUsable path then .error .unusable
  else
    match (Bytes.splitOn Byte.slash path).reverse.dropWhile (· == []) with
    | [] => .error (if path = [] then .missing else .occupied)
    | last :: front =>
      match fs.walk? (fs.start path) front.reverse with
      | .error fault => .error fault
      | .ok l =>
        match fs.node? l with
        | none => .error .missing
        | some (.file _) => .error .occupied
        | some .directory => .ok (l, last)

/-- The location of a new node. The path has to end in a name. -/
def site? (fs : FileSystem) (path : Bytes) : Except Fault Location :=
  match fs.entrance? path with
  | .error fault => .error fault
  | .ok (l, last) =>
    if last = Path.here ∨ last = Path.above then .error .occupied
    else if Path.longestPart < last.length then .error .unusable
    else .ok (l ++ [last])

end FileSystem

end PackageMigration
