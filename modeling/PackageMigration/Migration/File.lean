import PackageMigration.FileSystem.Edit
import PackageMigration.Migration.Conversion
/-
  Migrating single files. A file is put in place at once, when its content is complete.

  * `Outcome`: a run and the file system that it leaves.
  * `stage`: the changes before the content of a file is complete.
  * `commit`: the changes that put a file in place.
  * `copyUnchanged`: a file as it is.
  * `migrateFile`: a file with its mapped names replaced.
-/
namespace PackageMigration.Migration

/-- A run and the file system that it leaves. -/
structure Outcome (α : Type) where
  run : Run α
  files : FileSystem

namespace Outcome

/-- The run that fails at once. -/
def fail {α : Type} (e : Error) (files : FileSystem) : Outcome α := ⟨Run.fail e, files⟩

/-- The outcome with other events in front. -/
def after {α : Type} (events : List Event) (o : Outcome α) : Outcome α :=
  { o with run := { o.run with events := events ++ o.run.events } }

end Outcome

/-- Make changes and give an answer, unless one fails. -/
def perform {α : Type} (edits : List Edit) (answer : α) (fs : FileSystem) : Outcome α :=
  match Edit.applyAll fs edits with
  | (fs, none) => ⟨pure answer, fs⟩
  | (fs, some path) => .fail (.io path) fs

/-- The directory of a path as it is written, if it has one. -/
def directoryOf? (path : Bytes) : Option Bytes := (Path.parent? path).filter (· != [])

/-- The directory in which the content of a file is completed. -/
def stagingDirectory (destination : Bytes) : Bytes := (directoryOf? destination).getD Path.here

/-- How many bytes the name of a file has while its content is completed. -/
def stagedNameLength : Nat := 10

/-- The change that lets the content of a file be completed in the directory of the file. -/
def reserve (destination : Bytes) : Edit :=
  .reserve (stagingDirectory destination) stagedNameLength

/-- The changes before the content of a file is complete. -/
def stage (destination : Bytes) : List Edit :=
  [.makeDirectories (stagingDirectory destination), reserve destination]

/-- The changes that put a file in place. -/
def commit (destination content : Bytes) : List Edit :=
  ((directoryOf? destination).map Edit.makeDirectories).toList ++ [.place destination content]

/-- Copy a file as it is. Nothing is done if source and destination are the same file. -/
def copyUnchanged (source destination : Bytes) (fs : FileSystem) : Outcome Unit :=
  if fs.sameFile source destination then ⟨pure (), fs⟩
  else
    match Edit.applyAll fs (stage destination) with
    | (fs, some path) => .fail (.io path) fs
    | (fs, none) =>
      match fs.read? source with
      | none => .fail (.io source) fs
      | some content => perform (commit destination content) () fs

/-- Put content in place that comes from no file. -/
def placeContent (destination content : Bytes) (fs : FileSystem) : Outcome Unit :=
  perform (stage destination ++ commit destination content) () fs

/-- Migrate a file. The answer tells whether it changed; if not, it is copied as it is. -/
def migrateFile {depth : Nat} (c : Conversion depth) (source destination : Bytes) (fs : FileSystem) :
    Outcome Bool :=
  match Edit.applyAll fs [.makeDirectories (stagingDirectory destination)] with
  | (fs, some path) => .fail (.io path) fs
  | (fs, none) =>
    match fs.read? source with
    | none => .fail (.io source) fs
    | some content =>
      match Edit.applyAll fs (if c.isStreamed source content then [reserve destination] else []) with
      | (fs, some path) => .fail (.io path) fs
      | (fs, none) =>
        let converted := c.file source content
        match converted.result with
        | .error e => ⟨⟨converted.events, .error e⟩, fs⟩
        | .ok (some new) =>
          (perform (reserve destination :: commit destination new) true fs).after converted.events
        | .ok none =>
          let copied := copyUnchanged source destination fs
          ⟨⟨converted.events ++ copied.run.events, copied.run.result.map fun _ => false⟩,
            copied.files⟩

end PackageMigration.Migration
