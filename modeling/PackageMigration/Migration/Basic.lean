import PackageMigration.Container.Zip
import PackageMigration.Migration.Tree
import PackageMigration.Profile
/-
  Migrations: what is to be migrated where and how, to be run once.

  * `Migration`: the settings and the state; a new one has neither source nor destination.
  * `Migration.execute`: the run. A run that fails can be run again.
  * `Migration.hasConverted`: whether the run changed anything.
-/
namespace PackageMigration

/-- A migration. -/
structure Migration where
  source : Option Bytes
  destination : Option Bytes
  profile : Profile
  /-- Converted payloads wait in memory. -/
  zipInMemory : Bool
  /-- A table to use instead of the profile's. -/
  customTable : Option Table
  /-- Whether anything changed, once a run has succeeded. -/
  completed : Option Bool

namespace Migration

/-- A migration without source and destination. -/
def new : Migration := ⟨none, none, .default, false, none, none⟩

/-- The table of a migration. -/
def table (m : Migration) : Table := m.customTable.getD m.profile.table

def mode (m : Migration) : BufferMode := if m.zipInMemory then .inMemory else .spooled

/-- What the run of a migration depends on besides its paths. -/
def conversion (m : Migration) : Conversion := ⟨Container.zip, m.table, m.mode⟩

/-- What a run answers: whether it changed anything. -/
def transform (m : Migration) (source destination : Bytes) (fs : FileSystem) : Outcome Bool :=
  match fs.find? source with
  | none => .fail (.io source) fs
  | some .directory => migrateDirectory m.conversion source destination fs
  | some (.file _) => migrateFile m.conversion source destination fs

/-- Run a migration. It is completed when the run succeeds, and stays as it is when it fails. -/
def execute (m : Migration) (fs : FileSystem) : Migration × Outcome Unit :=
  match m.completed, m.source, m.destination with
  | some _, _, _ => (m, .fail .alreadyCompleted fs)
  | none, some source, some destination =>
    let o := m.transform source destination fs
    match o.run.result with
    | .error e => (m, ⟨⟨o.run.events, .error e⟩, o.files⟩)
    | .ok converted =>
      ({ m with completed := some converted }, ⟨⟨o.run.events ++ [.done], .ok ()⟩, o.files⟩)
  | none, _, _ => (m, .fail .pathsMissing fs)

/-- Whether the run changed anything. -/
def hasConverted (m : Migration) : Except Error Bool :=
  match m.completed with
  | none => .error .notCompleted
  | some converted => .ok converted

end Migration

end PackageMigration
