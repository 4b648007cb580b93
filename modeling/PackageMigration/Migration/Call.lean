import PackageMigration.Migration.Basic
/-
  Calls on a migration, one after another. The file system may change in between.

  * `Setting`, `Migration.set`: what can be set.
  * `Call`, `Reply`, `Migration.call`: one call and its answer.
  * `Migration.after`: the migration after a list of calls.
-/
namespace PackageMigration

namespace Migration

/-- A setting and its value. -/
inductive Setting where
  | source (path : Bytes)
  | destination (path : Bytes)
  | profile (p : Profile)
  | zipInMemory (flag : Bool)
  | table (t : Table)

/-- The migration with a setting changed. -/
def set (m : Migration) : Setting → Migration
  | .source path => { m with source := some path }
  | .destination path => { m with destination := some path }
  | .profile p => { m with profile := p }
  | .zipInMemory flag => { m with zipInMemory := flag }
  | .table t => { m with customTable := some t }

/-- A call on a migration. -/
inductive Call where
  | set (s : Setting)
  /-- Run it, without a listener for its events. -/
  | execute
  | executeWithProgress
  | hasConverted

def Call.isSetting : Call → Bool
  | set _ => true
  | _ => false

def Call.isExecution : Call → Bool
  | execute | executeWithProgress => true
  | _ => false

/-- The answer to a call. -/
inductive Reply where
  | done
  | executed (o : Outcome Unit)
  | answered (converted : Except Error Bool)

/-- The reply is that of an execution that succeeded. -/
def Reply.isSuccess : Reply → Bool
  | executed o => o.run.result.isOk
  | _ => false

/-- The migration after a call on a file system, and the reply. -/
def call (m : Migration) (fs : FileSystem) : Call → Migration × Reply
  | .set s => (m.set s, .done)
  | .execute =>
    let (m, o) := m.execute fs
    (m, .executed ⟨⟨[], o.run.result⟩, o.files⟩)
  | .executeWithProgress =>
    let (m, o) := m.execute fs
    (m, .executed o)
  | .hasConverted => (m, .answered m.hasConverted)

/-- Calls in their order, each with the file system that it meets. -/
abbrev History := List (FileSystem × Call)

/-- The migration after calls. -/
def after (m : Migration) (h : History) : Migration := h.foldl (fun m step => (m.call step.1 step.2).1) m

end Migration

end PackageMigration
