import PackageMigration.Archive.Migrate
import PackageMigration.Entry.Artifact
/-
  The content of single files with its mapped names replaced.

  * `Conversion`: what a run depends on besides its paths.
  * `Conversion.convert?`: content of a kind other than an archive.
  * `Conversion.file`: the content of a file; `isStreamed`: whether it is written while it is read.
-/
namespace PackageMigration

open Migration (Error Event Run)

/-- What a run depends on besides its paths: the format of archives, the table, and where converted
payloads wait. At most `depth` archives may be in one another inside an archive. -/
structure Conversion (depth : Nat := Archive.nestingLimit) where
  format : Container.Format
  table : Table
  mode : BufferMode

namespace Conversion

/-- A manifest with the mapped names in its values replaced, or none if they hold none. -/
def convertManifest? (t : Table) (path content : Bytes) : Except Error (Option Bytes) :=
  match Manifest.parse? content with
  | .error cause => .error (.manifest path cause)
  | .ok m => .ok ((m.convertValues? t).map Manifest.bytes)

/-- The content of a file other than an archive with its mapped names replaced, or none if it holds
none. -/
def convert? (t : Table) (kind : ArtifactKind) (path content : Bytes) : Except Error (Option Bytes) :=
  match kind with
  | .classBinary => (t.convertClass? content).mapError (.classFormat path)
  | .manifest => convertManifest? t path content
  | .sourceText => .ok (t.convert? content)
  | .archive | .passthrough => .ok none

variable {depth : Nat}

/-- The content of a file with its mapped names replaced, or none if it holds none. -/
def file (c : Conversion depth) (path content : Bytes) : Run (Option Bytes) :=
  let kind := ArtifactKind.of path (content.take ArtifactKind.headSize)
  if kind = .archive then Archive.migrate c.format c.table c.mode path content depth
  else do
    Run.report (.converting 0 1)
    let new ← Run.ofExcept (convert? c.table kind path content)
    Run.report (.converting 1 1)
    return new

/-- The new content of the file is written piece by piece, while the rest is still being converted. -/
def isStreamed (c : Conversion depth) (path content : Bytes) : Bool :=
  c.mode == .spooled && ArtifactKind.of path (content.take ArtifactKind.headSize) == .archive

end Conversion

end PackageMigration
