import PackageMigration.ClassFile.Basic
import PackageMigration.Entry.Name
/-
  The kinds of archive entries.

  * `EntryKind`, `EntryKind.of`: the kind of an entry, by its name and the first bytes of its content.
  * `Route`, `Table.route`: the kind of an entry and its new name.
-/
namespace PackageMigration

/-- How an archive entry is treated. -/
inductive EntryKind where
  | directory
  | classBinary
  | manifest
  /-- A signature or its key: worthless once an entry changes. -/
  | signature
  | serviceRegistration
  /-- An archive in the archive. -/
  | nestedArchive
  /-- Text that can mention packages. -/
  | sourceText
  /-- Anything else: its content stays. -/
  | passthrough
  deriving DecidableEq, Repr

/-- The kind of an entry. The first rule that fits decides. -/
def EntryKind.of (name payload : Bytes) : EntryKind :=
  if EntryName.isDirectory name then .directory
  else if EntryName.isClass name || looksLikeClass payload then .classBinary
  else if EntryName.isManifest name then .manifest
  else if EntryName.isSignature name then .signature
  else if EntryName.isService name then .serviceRegistration
  else if EntryName.isArchive name then .nestedArchive
  else if EntryName.isText name then .sourceText
  else .passthrough

/-- What is decided about an entry. -/
structure Route where
  kind : EntryKind
  /-- Its new name, if it moves. -/
  renamed : Option Bytes
  deriving DecidableEq, Repr

/-- The route of an entry. The archive's own files never move. -/
def Table.route (t : Table) (name payload : Bytes) : Route :=
  let kind := EntryKind.of name payload
  ⟨kind, if kind = .manifest ∨ kind = .signature then none else t.renameEntry? name⟩

end PackageMigration
