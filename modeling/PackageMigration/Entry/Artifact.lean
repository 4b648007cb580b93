import PackageMigration.ClassFile.Basic
import PackageMigration.Entry.Name
import PackageMigration.FileSystem.Path
/-
  The kinds of files outside of archives.

  * `ArtifactKind`, `ArtifactKind.of`: the kind of a file, by its path and its first bytes.
-/
namespace PackageMigration

/-- How a file is treated. -/
inductive ArtifactKind where
  | archive
  | classBinary
  | manifest
  /-- Text that can mention packages. -/
  | sourceText
  /-- Anything else: its content stays. -/
  | passthrough
  deriving DecidableEq, Repr

namespace ArtifactKind

/-- How many bytes of a file its kind depends on. -/
def headSize : Nat := 8

/-- How a container with entries starts. -/
def containerMagic : Bytes := [0x50, 0x4B, 0x03, 0x04]

/-- The path leads to a service registration of an unpacked archive. -/
def isServiceFile (path : Bytes) : Bool :=
  match Path.parent? path with
  | none => false
  | some directory =>
    Path.fileName? directory == some (bytes "services") &&
      (Path.parent? directory).bind Path.fileName? == some (bytes "META-INF")

/-- The kind of a file. The first rule that fits decides. -/
def of (path head : Bytes) : ArtifactKind :=
  let name := (Path.fileName? path).getD []
  if EntryName.isArchive name || containerMagic.isPrefixOf head then .archive
  else if EntryName.isClass name || looksLikeClass head then .classBinary
  else if Bytes.sameIgnoringCase name (bytes "MANIFEST.MF") then .manifest
  else if EntryName.isText name || isServiceFile path then .sourceText
  else .passthrough

end ArtifactKind

end PackageMigration
