import PackageMigration.ClassFile.Basic
import PackageMigration.Manifest.Parser
/-
  What can end a migration.

  * `Migration.Error`: the causes; `Migration.Error.message`: their wording.
  * `Migration.Error.isConfiguration`: whether nothing was looked at yet.
-/
namespace PackageMigration.Migration

/-- What can end a migration. Archives, files and entries are named as the user finds them. -/
inductive Error where
  /-- There is no source or no destination. -/
  | pathsMissing
  /-- The migration has not been run with success. -/
  | notCompleted
  /-- The migration has been run with success before. -/
  | alreadyCompleted
  /-- Two entries of an archive come to have this name. -/
  | entryRepeated (archive target : Bytes)
  /-- Two files of a tree come to have this path. -/
  | fileRepeated (source target : Bytes)
  /-- The content of an entry cannot be read. -/
  | damagedEntry (name : Bytes)
  | classFormat (name : Bytes) (cause : ClassFile.Error)
  | manifest (archive : Bytes) (cause : Manifest.Error)
  /-- An archive is no container, or holds an entry of an unknown form. -/
  | unreadableArchive (archive : Bytes)
  /-- An archive is nested in too many others: it stands for the end of the memory that going from
  archive to archive takes, which nothing else bounds. -/
  | nestedTooDeep (archive : Bytes)
  /-- A file or a directory cannot be read or written. -/
  | io (path : Bytes)
  deriving DecidableEq, Repr

namespace Error

/-- What repeats, and the name that it comes to have. -/
def repeated (what : String) (target : Bytes) : String :=
  what ++ " " ++ Text.ofBytes target ++ " occurs more than once after renaming"

def message : Error → String
  | pathsMissing => "configuration error: both a source and a destination are required"
  | notCompleted => "Migration has not completed"
  | alreadyCompleted => "Migration has already completed"
  | entryRepeated archive target =>
    "malformed input " ++ Text.ofBytes archive ++ ": " ++ repeated "entry" target
  | fileRepeated source target =>
    "malformed input " ++ Text.ofBytes source ++ ": " ++ repeated "file" target
  | damagedEntry name => "malformed input " ++ Text.ofBytes name ++ ": its content is damaged"
  | classFormat name _ => "malformed class file " ++ Text.ofBytes name
  | manifest archive _ => "malformed manifest in " ++ Text.ofBytes archive
  | unreadableArchive archive => "archive error in " ++ Text.ofBytes archive
  | nestedTooDeep archive =>
    "archive error in " ++ Text.ofBytes archive ++ ": nested in too many archives"
  | io path => "I/O error on " ++ Text.ofBytes path

/-- The run could not start: nothing has been looked at. -/
def isConfiguration : Error → Bool
  | pathsMissing => true
  | _ => false

end Error

end PackageMigration.Migration
