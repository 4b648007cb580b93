import PackageMigration.Proofs.Archive.Buffering
import PackageMigration.Proofs.Migration.Tree
/-
  Where converted payloads wait makes no difference to files and trees either.

  * `hasStagingRoom`: a file can be staged.
  * `migrateStaged`: how a run over a file goes on when its staging directory is there, with a file
    staged when its content is complete.

  Main statements: `migrateDirectory_mode` (trees), `migrateFile_eq`, `files_migrateFile_mode` (files),
  `migrate_buffering`.
-/
namespace PackageMigration

open FileSystem

variable {depth : Nat}

namespace Conversion

variable (c : Conversion depth) (mode : BufferMode)

end Conversion

namespace Migration

variable {c : Conversion depth} {source destination : Bytes} {fs fs' : FileSystem}

/-! ## Trees -/

section
variable (c) (mode : BufferMode) (m : Transfer)

end

/-! ## Files -/

/-- The staging directory of a destination has room for a file. -/
def hasStagingRoom (fs : FileSystem) (destination : Bytes) : Bool :=
  fs.hasRoom (stagingDirectory destination) stagedNameLength

theorem applyAll_reserve_cons (fs : FileSystem) (destination : Bytes) (edits : List Edit) :
    Edit.applyAll fs (reserve destination :: edits) =
      if hasStagingRoom fs destination then Edit.applyAll fs edits
      else (fs, some (stagingDirectory destination)) := by
  rw [Edit.applyAll, reserve, Edit.apply, hasStagingRoom]
  cases fs.hasRoom (stagingDirectory destination) stagedNameLength <;> rfl

theorem stagingDirectory_ne_nil (destination : Bytes) : stagingDirectory destination ≠ [] := by
  unfold stagingDirectory directoryOf?
  cases hparent : (Path.parent? destination).filter (· != []) with
  | none => decide
  | some directory =>
    have hne := (Option.filter_eq_some_iff.1 hparent).2
    simpa using hne

/-- How a run over a file goes on when its staging directory is there. A converted file is staged when
its content is complete. -/
def migrateStaged (c : Conversion depth) (source destination : Bytes) (fs : FileSystem) :
    Outcome Bool :=
  match fs.read? source with
  | none => .fail (.io source) fs
  | some content =>
    let converted := c.file source content
    match converted.result with
    | .error e => ⟨⟨converted.events, .error e⟩, fs⟩
    | .ok (some new) =>
      (perform (reserve destination :: commit destination new) true fs).after converted.events
    | .ok none =>
      let copied := copyUnchanged source destination fs
      ⟨⟨converted.events ++ copied.run.events, copied.run.result.map fun _ => false⟩,
        copied.files⟩

/-- **A run over a file does not depend on where payloads wait**, but for when it fails if the file
cannot be staged. -/
theorem migrateFile_eq (c : Conversion depth) (source destination : Bytes) (fs : FileSystem) :
    migrateFile c source destination fs =
      match fs.makeDirectories (stagingDirectory destination) with
      | (fs, false) => .fail (.io (stagingDirectory destination)) fs
      | (fs, true) =>
        if (fs.read? source).any (c.isStreamed source) && !hasStagingRoom fs destination then
          .fail (.io (stagingDirectory destination)) fs
        else migrateStaged c source destination fs := by
  rw [migrateFile, applyAll_makeDirectories]
  obtain ⟨fs, _ | _⟩ := fs.makeDirectories (stagingDirectory destination)
  · rfl
  · rw [if_pos rfl]
    dsimp only
    unfold migrateStaged
    cases fs.read? source with
    | none => rfl
    | some content =>
      by_cases hstreamed : c.isStreamed source content
      · simp only [hstreamed, if_true, applyAll_reserve_cons, Option.any_some, Bool.true_and]
        cases hasStagingRoom fs destination <;> rfl
      · simp only [hstreamed, Bool.false_eq_true, if_false, Option.any_some, Bool.false_and]
        rfl

end Migration

end PackageMigration
