import PackageMigration.FileSystem.Edit
/-
  What has to be done to one file system to get another one.

  * `FileSystem.editsTo`: the changes; directories come first, files that go come last.
-/
namespace PackageMigration.FileSystem

/-- The nodes that stand in a file system, but not as they are in another one. -/
def nodesNotIn (fs other : FileSystem) : List (Location × Node) :=
  (fs.below []).filter fun n => other.node? n.1 != some n.2

/-- The change that puts a node in place. -/
def editFor : Location × Node → Edit
  | (l, .directory) => .makeDirectories l.path
  | (l, .file content) => .place l.path content

/-- The changes that turn a file system into another one, which has at least its directories. -/
def editsTo (fs other : FileSystem) : List Edit :=
  (other.nodesNotIn fs).map editFor ++
    ((fs.below []).filter fun n => n.2 != .directory && (other.node? n.1).isNone).map fun n =>
      .remove n.1.path

end PackageMigration.FileSystem
