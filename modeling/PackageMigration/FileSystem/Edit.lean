import PackageMigration.FileSystem.Lookup
/-
  Changes to file systems.

  * `FileSystem.makeDirectory?`, `makeDirectories`: a directory, and a directory with those above it.
  * `FileSystem.place?`: a file, complete at once, over whatever file was there.
  * `FileSystem.remove?`, `removeDirectory`: a file, and a directory if it is empty.
  * `FileSystem.hasRoom`: whether a name of some length fits into a directory.
  * `Edit`, `Edit.apply`, `applyAll`: changes one after the other, until one fails.
-/
namespace PackageMigration

namespace FileSystem

/-- The file system with a new directory. -/
def makeDirectory? (fs : FileSystem) (path : Bytes) : Except Fault FileSystem :=
  match fs.site? path with
  | .error fault => .error fault
  | .ok l => if (fs.node? l).isSome then .error .occupied else .ok (fs.set l .directory)

/-- The file system with a directory that may be there already, and whether it is there then. -/
def ensureDirectory (fs : FileSystem) (path : Bytes) : FileSystem × Bool :=
  match fs.makeDirectory? path with
  | .ok fs => (fs, true)
  | .error _ => (fs, fs.isDirectory path)

/-- The file system with a directory and those above it, at most `fuel` of them, and whether the
directory is there then. If it is not, some of those above it may be. -/
def makeDirectoriesWithin : Nat → Bytes → FileSystem → FileSystem × Bool
  | 0, _, fs => (fs, false)
  | fuel + 1, path, fs =>
    if path = [] then (fs, true)
    else
      match fs.makeDirectory? path with
      | .ok fs => (fs, true)
      | .error .occupied => (fs, fs.isDirectory path)
      | .error .unusable => (fs, false)
      | .error .missing =>
        match Path.parent? path with
        | none => (fs, false)
        | some parent =>
          match makeDirectoriesWithin fuel parent fs with
          | (fs, false) => (fs, false)
          | (fs, true) => fs.ensureDirectory path

/-- The file system with a directory and those above it, and whether the directory is there then. The
empty path asks for nothing. -/
def makeDirectories (fs : FileSystem) (path : Bytes) : FileSystem × Bool :=
  makeDirectoriesWithin (path.length + 1) path fs

/-- The file system with a file of this content. It may take the place of a file, but not of a
directory, and a path that ends in a slash is no file's. -/
def place? (fs : FileSystem) (path content : Bytes) : Option FileSystem :=
  if path.getLast? = some Byte.slash then none
  else
    match fs.site? path with
    | .error _ => none
    | .ok l => if fs.node? l = some .directory then none else some (fs.set l (.file content))

/-- The file system without a file. -/
def remove? (fs : FileSystem) (path : Bytes) : Option FileSystem :=
  if path.getLast? = some Byte.slash then none
  else
    match fs.site? path with
    | .error _ => none
    | .ok l =>
      match fs.node? l with
      | some (.file _) => some (fs.erase l)
      | _ => none

/-- The file system without a directory, if the directory is empty. -/
def removeDirectory (fs : FileSystem) (path : Bytes) : FileSystem :=
  match fs.site? path with
  | .error _ => fs
  | .ok l => if fs.node? l = some .directory ∧ fs.below l = [] then fs.erase l else fs

/-- A name of this many bytes fits into a directory, by its absolute path. -/
def hasRoom (fs : FileSystem) (directory : Bytes) (length : Nat) : Bool :=
  Path.hasRoom (fs.absolute directory) length

end FileSystem

/-- A change to a file system. -/
inductive Edit where
  /-- A directory has to be there, with those above it. -/
  | makeDirectories (path : Bytes)
  /-- A directory has to hold a file for a while whose name has this many bytes. Nothing is left of
  it. -/
  | reserve (directory : Bytes) (length : Nat)
  /-- A file has to have this content. -/
  | place (path content : Bytes)
  /-- A file has to go. -/
  | remove (path : Bytes)
  deriving DecidableEq, Repr

namespace Edit

/-- The path that a change is about. -/
def path : Edit → Bytes
  | makeDirectories path => path
  | reserve directory _ => directory
  | place path _ => path
  | remove path => path

/-- The file system after a change, and whether the change succeeded. -/
def apply (fs : FileSystem) : Edit → FileSystem × Bool
  | makeDirectories path => fs.makeDirectories path
  | reserve directory length => (fs, fs.hasRoom directory length)
  | place path content =>
    match fs.place? path content with
    | some fs => (fs, true)
    | none => (fs, false)
  | remove path =>
    match fs.remove? path with
    | some fs => (fs, true)
    | none => (fs, false)

/-- The file system after changes, up to the first that fails, and the path of that one. -/
def applyAll (fs : FileSystem) : List Edit → FileSystem × Option Bytes
  | [] => (fs, none)
  | e :: es =>
    match e.apply fs with
    | (fs, true) => applyAll fs es
    | (fs, false) => (fs, some e.path)

end Edit

end PackageMigration
