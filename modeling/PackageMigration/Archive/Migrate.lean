import PackageMigration.Archive.Metadata
/-
  Migrating archives, with the archives in them.

  * `written?`: the entries of the migrated archive.
  * `migrateItems`: a list of entries.
  * `migrateWithin?`: an archive in archives.
  * `migrate`: an archive; `nestingLimit`: how deep archives may be in it when nothing else is said.
-/
namespace PackageMigration.Archive

open Migration (Error Event Run)

/-- The file type and permissions of a migrated entry: a plain file's, with the permissions it had. -/
def writtenMode (mode : Option Nat) : Nat := 0o100000 ||| (mode.getD 0o644 &&& 0o777)

/-- The entry of a plan, with its new content. -/
def Plan.writtenEntry (p : Plan) (data : Bytes) : Container.Entry :=
  ⟨p.target, p.entry.method, some (writtenMode p.entry.mode), data⟩

/-- The entries of the plans, in the order of the plans. The stash has to hold their contents. -/
def written? (label : Bytes) : Stash → List Plan → Except Error (List Container.Entry)
  | _, [] => .ok []
  | stash, p :: ps =>
    match p.content with
    | .dropped => written? label stash ps
    | .kept => (written? label stash ps).map (p.writtenEntry p.entry.data :: ·)
    | .converted held =>
      match stash.get? held with
      | none => .error (.io label)
      | some (data, stash) => (written? label stash ps).map (p.writtenEntry data :: ·)

/-- The entries of the migrated archive, or none if nothing changes. -/
def migrateItems (nested : Nested) (t : Table) (mode : BufferMode) (label : Bytes)
    (items : List Container.Item) : Run (Option (List Container.Entry)) := do
  let scan ← scanItems nested t label items.length 0 ⟨[], .empty mode⟩ items
  Run.report .repairingMetadata
  match ← Run.ofExcept (verdict? t label scan.plans) with
  | .unchanged => return none
  | .changed manifest =>
    Run.report .writing
    let entries ← Run.ofExcept (written? label scan.stash (withMetadata manifest scan.plans).reverse)
    return some entries

/-- The migrated archive, or none if nothing changes, the archives in it being migrated as told. -/
def migrateWith (format : Container.Format) (nested : Nested) (t : Table) (mode : BufferMode)
    (label data : Bytes) : Run (Option Bytes) := do
  Run.report .scanning
  match format.read? data with
  | none => Run.fail (.unreadableArchive label)
  | some items => return (← migrateItems nested t mode label items).map format.write

/-- The migrated archive, or none if nothing changes. It may be the first of at most `depth` archives
in one another. The depth stands for a recursion that nothing bounds but the memory there is: an archive
that can be migrated is migrated alike at every greater depth, and what is said of archives is said for
any depth. -/
def migrateWithin? (format : Container.Format) (t : Table) : Nat → Nested
  | 0 => fun label _ => .error (.nestedTooDeep label)
  | depth + 1 => fun label data =>
    (migrateWith format (migrateWithin? format t depth) t .inMemory label data).result

/-- How many archives may be in one another inside an archive when nothing else is said. It is no rule
of migrations, only more than the memory for the recursion allows. -/
def nestingLimit : Nat := 1000

/-- The migrated archive, or none if nothing changes. At most `depth` archives may be in one another
inside it. -/
def migrate (format : Container.Format) (t : Table) (mode : BufferMode) (label data : Bytes)
    (depth : Nat := nestingLimit) : Run (Option Bytes) :=
  migrateWith format (migrateWithin? format t depth) t mode label data

end PackageMigration.Archive
