import PackageMigration.CommandLine.Command
import PackageMigration.FileSystem.Difference
/-
  The program. It reads the part of the disk that the command line is about, runs the command on it, and
  makes the changes that the command made.
-/
namespace PackageMigration.Program

/-- The locations that a path passes through, the last one being where it leads. -/
def passed (l : Location) : List Bytes → List Location
  | [] => [l]
  | part :: parts =>
    let next :=
      if Path.isIdle part then l else if part = Path.above then l.dropLast else l ++ [part]
    l :: passed next parts

/-- The location of an absolute path. -/
def locationOf (path : String) : Location :=
  (Bytes.splitOn Byte.slash (bytes path)).filter fun part => !Path.isIdle part

/-- The file system with the node that stands at a location on the disk, if there is one. -/
def loadNode (fs : FileSystem) (l : Location) : IO FileSystem := do
  if l = [] then return fs
  let path := System.mkFilePath [Text.ofBytes l.path]
  if ← path.isDir then return fs.set l .directory
  if ← path.pathExists then
    return fs.set l (.file (← IO.FS.readBinFile path).data.toList)
  return fs

/-- The file system with all that stands at and below a location on the disk. -/
partial def loadTree (fs : FileSystem) (l : Location) : IO FileSystem := do
  let fs ← loadNode fs l
  if fs.node? l == some .directory then
    let mut fs := fs
    for entry in ← (System.mkFilePath [Text.ofBytes l.path]).readDir do
      fs ← loadTree fs (l ++ [bytes entry.fileName])
    return fs
  return fs

/-- The file system with all that a path is about. -/
def loadPath (fs : FileSystem) (path : Bytes) : IO FileSystem := do
  let locations := passed (fs.start path) (Bytes.splitOn Byte.slash path)
  let fs ← locations.dropLast.foldlM loadNode fs
  match locations.getLast? with
  | none => return fs
  | some l => loadTree fs l

/-- The part of the disk that arguments are about. -/
def load (a : CommandLine.Arguments) : IO FileSystem := do
  let here := locationOf (← IO.currentDir).toString
  let fs ← (List.range here.length).foldlM (fun fs n => loadNode fs (here.take (n + 1))) ⟨[], here⟩
  (a.rules.toList ++ [a.source, a.destination]).foldlM loadPath fs

/-- Make a change on the disk. A file is written beside its place and then moved there. -/
def perform (e : Edit) : IO Unit := do
  let path := Text.ofBytes e.path
  match e with
  | .makeDirectories _ => IO.FS.createDirAll path
  | .reserve .. => return
  | .remove _ => IO.FS.removeFile path
  | .place _ content =>
    let staged := path ++ ".migrating"
    IO.FS.writeBinFile staged content.toByteArray
    IO.FS.rename staged path

def helpText : String :=
  "Migrate javax.* references in sources, classes and archives to jakarta.*\n\n" ++
    "Usage: package-migration [OPTIONS] <SOURCE> <DESTINATION>\n\n" ++
    "Options:\n" ++
    "  --profile <PROFILE>      Packages to migrate: TOMCAT (default) or EE\n" ++
    "  --zip-in-memory          Keep converted entries of archives in memory\n" ++
    "  --log-level <LEVEL>      Log level\n" ++
    "  --rules <FILE>           JSON mapping table to use instead of the profile's\n" ++
    "  -h, --help               Print help\n" ++
    "  -V, --version            Print version"

def versionText : String := "package-migration " ++ Archive.version

/-- Run the migration that arguments ask for on the disk. -/
def run (a : CommandLine.Arguments) : IO UInt32 := do
  let before ← load a
  let (result, after) := CommandLine.run a before
  (before.editsTo after).forM perform
  match result with
  | .ok () => return CommandLine.Ending.succeeded.exitCode.toUInt32
  | .error failure =>
    IO.eprintln ("Migration failed: " ++ failure.message)
    return (CommandLine.Ending.failed failure).exitCode.toUInt32

end PackageMigration.Program

open PackageMigration in
def main (words : List String) : IO UInt32 := do
  let words := CommandLine.modernSpellings (words.map bytes)
  match CommandLine.parse? words with
  | .error .usage =>
    IO.eprintln Program.helpText
    return CommandLine.Ending.misused.exitCode.toUInt32
  | .error .help =>
    IO.println Program.helpText
    return CommandLine.Ending.informed.exitCode.toUInt32
  | .error .version =>
    IO.println Program.versionText
    return CommandLine.Ending.informed.exitCode.toUInt32
  | .ok a => Program.run a
