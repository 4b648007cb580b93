import PackageMigration.Migration.File
/-
  Migrating trees of files. Every file is converted before anything is changed below the destination.

  * `TreePlan`: the directories and files of the migrated tree.
  * `planTree`: the plan for a tree.
  * `TreePlan.edits`: the changes that a plan stands for.
  * `migrateDirectory`: a tree.
-/
namespace PackageMigration.Migration

/-- A file of the migrated tree. -/
structure PlannedFile where
  /-- The absolute path of the file that it comes from. -/
  source : Bytes
  /-- Its absolute path. -/
  target : Bytes
  renamed : Bool
  /-- Its content, unless the file stays where and as it is. -/
  content : Option Bytes
  deriving DecidableEq, Repr

/-- A migrated tree. -/
structure TreePlan where
  /-- The absolute paths of its directories. -/
  directories : List Bytes
  files : List PlannedFile
  /-- Some name or content changes. -/
  converted : Bool
  deriving DecidableEq, Repr

namespace TreePlan

def empty : TreePlan := ⟨[], [], false⟩

/-- The plan with one more directory in front. -/
def withDirectory (path : Bytes) (renamed : Bool) (p : TreePlan) : TreePlan :=
  { p with directories := path :: p.directories, converted := renamed || p.converted }

/-- The plan with one more file in front. -/
def withFile (f : PlannedFile) (converted : Bool) (p : TreePlan) : TreePlan :=
  { p with files := f :: p.files, converted := converted || f.renamed || p.converted }

/-- The changes that a plan stands for: directories, files, and in place the files that got another
name go at last. -/
def edits (inPlace : Bool) (p : TreePlan) : List Edit :=
  p.directories.map Edit.makeDirectories ++
    p.files.flatMap (fun f => (f.content.map (commit f.target)).getD []) ++
    ((p.files.filter fun f => inPlace && f.renamed).map fun f => .remove f.source)

end TreePlan

/-- The name of a node relative to a root above it. -/
def relativeName (root l : Location) : Bytes := [Byte.slash].intercalate (l.drop root.length)

/-- The new name of a directory, if it moves. -/
def renameDirectory? (t : Table) (name : Bytes) : Option Bytes :=
  (t.renameEntry? (name ++ [Byte.slash])).map fun new =>
    (new.reverse.dropWhile (· == Byte.slash)).reverse

/-- Where a tree goes. -/
structure Transfer where
  /-- The source as the user wrote it. -/
  name : Bytes
  source : Location
  destination : Location
  deriving DecidableEq, Repr

namespace Transfer

def inPlace (m : Transfer) : Bool := m.source == m.destination

/-- The destination lies in the tree. -/
def isNested (m : Transfer) : Bool := !m.inPlace && m.source.isPrefixOf m.destination

/-- The nodes of the tree, without a destination that lies in it. -/
def nodes (m : Transfer) (fs : FileSystem) : List (Location × Node) :=
  (fs.below m.source).filter fun n => !(m.isNested && m.destination.isPrefixOf n.1)

/-- The absolute path of a name below the destination. -/
def targetPath (m : Transfer) (name : Bytes) : Bytes := Path.join m.destination.path name

end Transfer

/-- How many bytes the name of the staging area has: the directory in the destination that holds the
files until all are converted. -/
def stagingAreaNameLength : Nat := 27

namespace Transfer

/-- The destination can hold the staging area. -/
def hasAreaRoom (m : Transfer) : Bool := Path.hasRoom m.destination.path stagingAreaNameLength

/-- The staging area can hold a file. -/
def hasFileRoom (m : Transfer) : Bool :=
  Path.hasRoom m.destination.path (stagingAreaNameLength + 1 + stagedNameLength)

/-- What is staged for a file, by its new content: nothing if it stays where and as it is. -/
def staged? (m : Transfer) (renamed : Bool) (content : Bytes) : Option Bytes → Option Bytes
  | some new => some new
  | none => if m.inPlace && !renamed then none else some content

end Transfer

variable {depth : Nat}

/-- The plan for a file at `l`. An error of the staging area is one of the destination: the area's own
name is drawn anew in every run. Room is asked for what stays staged once the file is converted; that a
spooled archive is staged while it is read, and given up if nothing changes, is left out. -/
def planFile (c : Conversion depth) (m : Transfer) (l : Location) (renamed : Option Bytes)
    (target content : Bytes) : Run (PlannedFile × Bool) := do
  if !Path.isUsable l.path then Run.fail (.io l.path)
  let new ← Run.ofExcept (c.file l.path content).result
  let staged := m.staged? renamed.isSome content new
  if staged.isSome && !m.hasFileRoom then Run.fail (.io m.destination.path)
  else return (⟨l.path, m.targetPath target, renamed.isSome, staged⟩, new.isSome)

/-- The plan for the nodes after the first `done` ones, of `total`. No two files may come to have the
same name; `taken` holds the names so far. Files are reported. -/
def planNodes (c : Conversion depth) (m : Transfer) (total : Nat) :
    Nat → List Bytes → List (Location × Node) → Run TreePlan
  | _, _, [] => pure .empty
  | done, taken, (l, .directory) :: nodes => do
    let name := relativeName m.source l
    let renamed := renameDirectory? c.table name
    let plan ← planNodes c m total (done + 1) taken nodes
    return plan.withDirectory (m.targetPath (renamed.getD name)) renamed.isSome
  | done, taken, (l, .file content) :: nodes => do
    let name := relativeName m.source l
    let renamed := c.table.renameEntry? name
    let target := renamed.getD name
    if target ∈ taken then Run.fail (.fileRepeated m.name target)
    else
      let (f, converted) ← planFile c m l renamed target content
      Run.report (.converting (done + 1) total)
      let plan ← planNodes c m total (done + 1) (target :: taken) nodes
      return plan.withFile f converted

/-- The absolute path of the first directory that is too far down for its names to be listed. -/
def unlisted? (nodes : List (Location × Node)) : Option Bytes :=
  (nodes.find? fun n => n.2 == .directory && !Path.isUsable n.1.path).map fun n => n.1.path

/-- The plan for a tree. All directories have to be listed first, and the destination needs room for
the staging area. -/
def planTree (c : Conversion depth) (m : Transfer) (fs : FileSystem) : Run TreePlan :=
  let nodes := m.nodes fs
  match unlisted? nodes with
  | some path => Run.fail (.io path)
  | none =>
    if m.hasAreaRoom then planNodes c m nodes.length 0 [] nodes
    else Run.fail (.io m.destination.path)

/-- Where a tree goes, by the paths of source and destination, both of which have to be there. -/
def transfer? (source destination : Bytes) (fs : FileSystem) : Except Error Transfer :=
  match fs.resolve? source, fs.resolve? destination with
  | none, _ => .error (.io source)
  | _, none => .error (.io destination)
  | some s, some d => .ok ⟨source, s, d⟩

/-- Migrate a tree into a destination that is there. The answer tells whether anything changed. When
the tree cannot be converted, `undo` gives the file system to leave. -/
def migrateTree (c : Conversion depth) (source destination : Bytes) (undo : FileSystem → FileSystem)
    (fs : FileSystem) : Outcome Bool :=
  match transfer? source destination fs with
  | .error e => .fail e (undo fs)
  | .ok m =>
    let planned := planTree c m fs
    match planned.result with
    | .error e => ⟨⟨planned.events, .error e⟩, undo fs⟩
    | .ok plan =>
      (perform (plan.edits m.inPlace) plan.converted fs).after (planned.events ++ [.writing])

/-- Migrate a tree. The destination is made if it is not there, and removed again if the tree cannot
be converted. -/
def migrateDirectory (c : Conversion depth) (source destination : Bytes) (fs : FileSystem) :
    Outcome Bool :=
  let undo : FileSystem → FileSystem :=
    if fs.hasNode destination then id else fun fs => fs.removeDirectory destination
  let outcome : Outcome Bool :=
    match Edit.applyAll fs [.makeDirectories destination] with
    | (fs, some path) => .fail (.io path) fs
    | (fs, none) => migrateTree c source destination undo fs
  outcome.after [.scanning]

end PackageMigration.Migration
