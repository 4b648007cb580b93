import PackageMigration.Proofs.FileSystem.Place
import PackageMigration.Proofs.Migration.Buffering
/-
  What a run over a file does once its staging directory is there, and the same run with the files in
  view that stand there for a while.

  * `settle`: how complete content gets its place.
  * `settleThrough`, `copyThrough`, `migrateFileThrough`: runs with the staged files in view.
  * `IsFree`: a name for a staged file.

  Main statements: `migrateStaged_eq`, `migrateFileThrough_eq` (nothing is left of the staged files).
-/
namespace PackageMigration

variable {depth : Nat} {fs : FileSystem} {source destination name content : Bytes} {t : Location}

namespace Migration

open FileSystem

/-! ## Complete content -/

/-- How complete content gets its place when the staging directory is there. -/
def settle {α : Type} (destination content : Bytes) (answer : α) (fs : FileSystem) : Outcome α :=
  if hasStagingRoom fs destination then
    match fs.place? destination content with
    | some fs => ⟨pure answer, fs⟩
    | none => .fail (.io destination) fs
  else .fail (.io (stagingDirectory destination)) fs

section
variable {α : Type} (content : Bytes) (answer : α)

/-- The directory of a path is its staging directory. -/
theorem applyAll_directoryOf? (h : fs.isDirectory (stagingDirectory destination)) :
    Edit.applyAll fs ((directoryOf? destination).map Edit.makeDirectories).toList = (fs, none) := by
  rw [Option.toList_map]
  refine Edit.applyAll_makeDirectories_of_isDirectory fun directory hd => ?_
  rwa [stagingDirectory, Option.mem_toList.1 hd] at h

theorem perform_commit (h : fs.isDirectory (stagingDirectory destination)) :
    perform (reserve destination :: commit destination content) answer fs =
      settle destination content answer fs := by
  rw [perform, applyAll_reserve_cons, commit, Edit.applyAll_append (applyAll_directoryOf? h), settle]
  cases hasStagingRoom fs destination with
  | false => rfl
  | true =>
    simp only [if_true, Edit.applyAll, Edit.apply]
    cases fs.place? destination content <;> rfl

theorem settle_eq_map {β : Type} (answer : α) (answer' : β) :
    settle destination content answer' fs =
      ⟨⟨(settle destination content answer fs).run.events,
        (settle destination content answer fs).run.result.map fun _ => answer'⟩,
        (settle destination content answer fs).files⟩ := by
  unfold settle
  split
  · split <;> rfl
  · rfl

end

theorem copyUnchanged_eq (h : fs.isDirectory (stagingDirectory destination))
    (hread : fs.read? source = some content) :
    copyUnchanged source destination fs =
      if fs.sameFile source destination then ⟨pure (), fs⟩ else settle destination content () fs := by
  rw [← perform_commit content () h, copyUnchanged, stage, Edit.applyAll, Edit.apply,
    makeDirectories_of_isDirectory h]
  refine if_congr Iff.rfl rfl ?_
  simp only [perform, applyAll_reserve_cons]
  cases hasStagingRoom fs destination with
  | false => rfl
  | true => simp only [if_true, Edit.applyAll, hread]

/-- **How a run over a file goes on.** Converted content is settled, and unconverted content as well
unless it is at the destination already. -/
theorem migrateStaged_eq (c : Conversion depth) (h : fs.isDirectory (stagingDirectory destination))
    (hread : fs.read? source = some content) :
    migrateStaged c source destination fs =
      match (c.file source content).result with
      | .error e => ⟨⟨(c.file source content).events, .error e⟩, fs⟩
      | .ok new =>
        (if new = none ∧ fs.sameFile source destination then ⟨pure false, fs⟩
          else settle destination (new.getD content) new.isSome fs).after
            (c.file source content).events := by
  rw [migrateStaged, hread]
  dsimp only
  cases (c.file source content).result with
  | error e => rfl
  | ok new =>
    cases new with
    | some new =>
      dsimp only
      rw [perform_commit new true h, if_neg (by simp)]
      rfl
    | none =>
      dsimp only
      rw [copyUnchanged_eq h hread]
      by_cases hsame : fs.sameFile source destination
      · simp only [hsame, if_true, and_self]
        rfl
      · rw [if_neg hsame, if_neg fun h => hsame h.2, Option.getD_none, Option.isSome_none,
          settle_eq_map content () false]
        rfl

/-! ## Staged files -/

/-- Move a staged file to its place. It is gone if that fails. -/
def commitStaged {α : Type} (t : Location) (destination : Bytes) (answer : α) (fs : FileSystem) :
    Outcome α :=
  match Edit.applyAll fs ((directoryOf? destination).map Edit.makeDirectories).toList with
  | (fs, some path) => .fail (.io path) (fs.erase t)
  | (fs, none) =>
    match fs.rename? t destination with
    | some fs => ⟨pure answer, fs⟩
    | none => .fail (.io destination) (fs.erase t)

/-- Stage content that is complete and move it to its place. -/
def settleThrough {α : Type} (name destination content : Bytes) (answer : α) (fs : FileSystem) :
    Outcome α :=
  match fs.create? (stagingDirectory destination) name with
  | none => .fail (.io (stagingDirectory destination)) fs
  | some t => commitStaged t destination answer ((fs.set t (.file [])).set t (.file content))

/-- Stage a copy of a file and move it to its place, unless the file is there already. -/
def copyThrough (name source destination : Bytes) (fs : FileSystem) : Outcome Unit :=
  if fs.sameFile source destination then ⟨pure (), fs⟩
  else
    match fs.makeDirectories (stagingDirectory destination) with
    | (fs, false) => .fail (.io (stagingDirectory destination)) fs
    | (fs, true) =>
      match fs.create? (stagingDirectory destination) name with
      | none => .fail (.io (stagingDirectory destination)) fs
      | some t =>
        match (fs.set t (.file [])).read? source with
        | none => .fail (.io source) ((fs.set t (.file [])).erase t)
        | some content => commitStaged t destination () ((fs.set t (.file [])).set t (.file content))

/-- Migrate a file with the staged files in view: one for what becomes of it, made while an archive is
read or when its content is complete, and one for a copy. -/
def migrateFileThrough (c : Conversion depth) (first second source destination : Bytes)
    (fs : FileSystem) : Outcome Bool :=
  match fs.makeDirectories (stagingDirectory destination) with
  | (fs, false) => .fail (.io (stagingDirectory destination)) fs
  | (fs, true) =>
    match fs.read? source with
    | none => .fail (.io source) fs
    | some content =>
      let converted := c.file source content
      let unconverted (fs : FileSystem) : Outcome Bool :=
        let copied := copyThrough second source destination fs
        ⟨⟨converted.events ++ copied.run.events, copied.run.result.map fun _ => false⟩, copied.files⟩
      if c.isStreamed source content then
        match fs.create? (stagingDirectory destination) first with
        | none => .fail (.io (stagingDirectory destination)) fs
        | some t =>
          let staged := fs.set t (.file [])
          match converted.result with
          | .error e => ⟨⟨converted.events, .error e⟩, staged.erase t⟩
          | .ok (some new) =>
            (commitStaged t destination true (staged.set t (.file new))).after converted.events
          | .ok none => unconverted (staged.erase t)
      else
        match converted.result with
        | .error e => ⟨⟨converted.events, .error e⟩, fs⟩
        | .ok (some new) => (settleThrough first destination new true fs).after converted.events
        | .ok none => unconverted fs

section
variable {α : Type}

/-- The name of a staged file is of the right length and not taken. -/
structure IsFree (fs : FileSystem) (destination name : Bytes) : Prop where
  length : name.length = stagedNameLength
  free : fs.node? (fs.locationOf (stagingDirectory destination) ++ [name]) = none

theorem create?_of_isFree (h : fs.isDirectory (stagingDirectory destination))
    (hfree : IsFree fs destination name) :
    fs.create? (stagingDirectory destination) name =
      if hasStagingRoom fs destination then
        some (fs.locationOf (stagingDirectory destination) ++ [name]) else none := by
  rw [create?_eq h hfree.free, hfree.length, hasStagingRoom]

theorem commitStaged_eq (h : fs.isDirectory (stagingDirectory destination)) (ht : t ≠ [])
    (hfree : fs.node? t = none) (content : Bytes) (answer : α) :
    commitStaged t destination answer (fs.set t (.file content)) =
      match fs.place? destination content with
      | some fs => ⟨pure answer, fs⟩
      | none => .fail (.io destination) fs := by
  rw [commitStaged, applyAll_directoryOf? (isDirectory_set ht hfree _ h)]
  dsimp only
  rw [rename?_set ht hfree, erase_set ht hfree]

theorem settleThrough_eq (h : fs.isDirectory (stagingDirectory destination))
    (hfree : IsFree fs destination name) (content : Bytes) (answer : α) :
    settleThrough name destination content answer fs = settle destination content answer fs := by
  rw [settleThrough, create?_of_isFree h hfree, settle]
  cases hasStagingRoom fs destination with
  | false => rfl
  | true =>
    simp only [if_true]
    rw [set_set, commitStaged_eq h (by simp) hfree.free]

theorem copyThrough_eq (h : fs.isDirectory (stagingDirectory destination))
    (hread : fs.read? source = some content) (hfree : IsFree fs destination name) :
    copyThrough name source destination fs = copyUnchanged source destination fs := by
  rw [copyUnchanged_eq h hread, copyThrough, makeDirectories_of_isDirectory h,
    ← settleThrough_eq h hfree, settleThrough]
  refine if_congr Iff.rfl rfl ?_
  dsimp only
  rw [create?_of_isFree h hfree]
  cases hasStagingRoom fs destination with
  | false => rfl
  | true => simp only [if_true, read?_set (List.concat_ne_nil _ _) hfree.free _ hread]

end

/-- **Nothing is left of the staged files.** -/
theorem migrateFileThrough_eq (c : Conversion depth) {first second : Bytes}
    (hfirst : IsFree (fs.makeDirectories (stagingDirectory destination)).1 destination first)
    (hsecond : IsFree (fs.makeDirectories (stagingDirectory destination)).1 destination second) :
    migrateFileThrough c first second source destination fs = migrateFile c source destination fs := by
  have hthere := @isDirectory_of_makeDirectories fs _ (stagingDirectory_ne_nil destination)
  rw [migrateFileThrough, migrateFile_eq]
  generalize fs.makeDirectories (stagingDirectory destination) = made at hfirst hsecond hthere
  obtain ⟨fs₁, _ | _⟩ := made
  · rfl
  have hthere := hthere rfl
  dsimp only at hfirst hsecond hthere ⊢
  rw [migrateStaged]
  cases hread : fs₁.read? source with
  | none => rfl
  | some content =>
    have hcopy := copyThrough_eq hthere hread hsecond
    have hsettle : ∀ new, perform (reserve destination :: commit destination new) true fs₁ =
        settleThrough first destination new true fs₁ := fun new => by
      rw [perform_commit new true hthere, settleThrough_eq hthere hfirst]
    dsimp only
    simp only [Option.any_some, hsettle, hcopy]
    cases c.isStreamed source content with
    | false => rfl
    | true =>
      rw [create?_of_isFree hthere hfirst]
      cases hroom : hasStagingRoom fs₁ destination with
      | false => rfl
      | true =>
        -- the staged file is made before the archive is read, not when its content is complete
        have hne : fs₁.locationOf (stagingDirectory destination) ++ [first] ≠ [] := by simp
        have hwritten : ∀ new, settleThrough first destination new true fs₁ =
            commitStaged (fs₁.locationOf (stagingDirectory destination) ++ [first]) destination true
              ((fs₁.set _ (.file [])).set _ (.file new)) := fun new => by
          rw [settleThrough, create?_of_isFree hthere hfirst, if_pos hroom]
        cases (c.file source content).result with
        | error e => simp [erase_set hne hfirst.free]
        | ok new =>
          cases new with
          | some new => simp [hwritten]
          | none => simp [erase_set hne hfirst.free, hcopy]

end Migration

end PackageMigration
