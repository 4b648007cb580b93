import PackageMigration.Migration.Call
/-
  The life of a migration: it is pending until an execution succeeds, and completed from then on.

  * `Migration.Runs`: the run of a pending migration, with its flag.
  * `Migration.call_cases`: what a call can do.
  * `Migration.unrun`, `Migration.unrun_after`: the settings are what was set, whatever else was called.

  Main statement: `Migration.lifecycle`.
-/
namespace PackageMigration.Migration

variable {m : Migration} {fs : FileSystem} {c : Call}

/-- The migration is pending, knows where to go, and its run on a file system succeeds with a flag. -/
def Runs (m : Migration) (fs : FileSystem) (converted : Bool) : Prop :=
  m.completed = none ∧ ∃ source destination, m.source = some source ∧ m.destination = some destination ∧
    (m.transform source destination fs).run.result = .ok converted

/-- The migration with its settings, as if it had not run. -/
def unrun (m : Migration) : Migration := { m with completed := none }

theorem hasConverted_eq_ok_iff {converted : Bool} :
    m.hasConverted = .ok converted ↔ m.completed = some converted := by
  unfold hasConverted
  cases m.completed <;> simp

theorem hasConverted_eq_error_iff : m.hasConverted = .error .notCompleted ↔ m.completed = none := by
  unfold hasConverted
  cases m.completed <;> simp

/-! ## One call -/

theorem execute_of_completed {converted : Bool} (h : m.completed = some converted) :
    m.execute fs = (m, .fail .alreadyCompleted fs) := by
  rw [execute, h]

theorem execute_of_missing (h : m.completed = none) (hpaths : m.source = none ∨ m.destination = none) :
    m.execute fs = (m, .fail .pathsMissing fs) := by
  unfold execute
  rcases hpaths with hs | hd
  · rw [h, hs]
  · rw [h, hd]
    cases m.source <;> rfl

/-- An execution succeeds and completes the migration, or it leaves the migration as it is. -/
theorem execute_cases (m : Migration) (fs : FileSystem) :
    (∃ converted, m.Runs fs converted ∧ (m.execute fs).1 = { m with completed := some converted } ∧
        (m.execute fs).2.run.result.isOk) ∨
      (∀ converted, ¬ m.Runs fs converted) ∧ (m.execute fs).1 = m ∧
        (m.execute fs).2.run.result.isOk = false := by
  by_cases hruns : ∃ converted, m.Runs fs converted
  · obtain ⟨converted, hruns⟩ := hruns
    obtain ⟨hcompleted, source, destination, hs, hd, hrun⟩ := id hruns
    refine .inl ⟨converted, hruns, ?_⟩
    unfold execute
    rw [hcompleted, hs, hd]
    dsimp only
    rw [hrun]
    exact ⟨rfl, rfl⟩
  · refine .inr ⟨not_exists.1 hruns, ?_⟩
    cases hcompleted : m.completed with
    | some converted => rw [execute_of_completed hcompleted]; exact ⟨rfl, rfl⟩
    | none =>
      cases hs : m.source with
      | none => rw [execute_of_missing hcompleted (.inl hs)]; exact ⟨rfl, rfl⟩
      | some source =>
        cases hd : m.destination with
        | none => rw [execute_of_missing hcompleted (.inr hd)]; exact ⟨rfl, rfl⟩
        | some destination =>
          unfold execute
          rw [hcompleted, hs, hd]
          dsimp only
          cases hrun : (m.transform source destination fs).run.result with
          | error e => exact ⟨rfl, rfl⟩
          | ok converted =>
            exact absurd ⟨converted, hcompleted, source, destination, hs, hd, hrun⟩ hruns

/-- **What a call can do**: change a setting, complete the migration by a run, or leave the migration
as it is. -/
theorem call_cases (m : Migration) (fs : FileSystem) (c : Call) :
    (∃ s, c = .set s ∧ (m.call fs c).1 = m.set s ∧ (m.call fs c).2.isSuccess = false) ∨
      (∃ converted, c.isExecution ∧ m.Runs fs converted ∧
        (m.call fs c).1 = { m with completed := some converted } ∧ (m.call fs c).2.isSuccess) ∨
      c.isSetting = false ∧ (c.isExecution → ∀ converted, ¬ m.Runs fs converted) ∧
        (m.call fs c).1 = m ∧ (m.call fs c).2.isSuccess = false := by
  cases c with
  | set s => exact .inl ⟨s, rfl, rfl, rfl⟩
  | hasConverted => exact .inr (.inr ⟨rfl, nofun, rfl, rfl⟩)
  | execute | executeWithProgress =>
    obtain ⟨converted, hruns, hm, hok⟩ | ⟨hruns, hm, hfail⟩ := execute_cases m fs
    · exact .inr (.inl ⟨converted, rfl, hruns, hm, hok⟩)
    · exact .inr (.inr ⟨rfl, fun _ => hruns, hm, hfail⟩)

theorem not_isExecution_set (s : Setting) : ¬ (Call.set s).isExecution :=
  nofun

theorem isSetting_of_isExecution (hc : c.isExecution) : c.isSetting = false := by
  cases c with
  | set => exact absurd hc (not_isExecution_set _)
  | execute | executeWithProgress | hasConverted => rfl

/-- An execution that fails leaves the migration as it is. -/
theorem call_of_not_isSuccess (hc : c.isExecution) (h : (m.call fs c).2.isSuccess = false) :
    (m.call fs c).1 = m := by
  obtain ⟨s, rfl, -⟩ | ⟨_, -, -, -, hreply⟩ | ⟨-, -, hm, -⟩ := call_cases m fs c
  · exact absurd hc (not_isExecution_set s)
  · rw [hreply] at h
    cases h
  · exact hm

theorem isSuccess_call_iff (hc : c.isExecution) :
    (m.call fs c).2.isSuccess ↔ ∃ converted, m.Runs fs converted := by
  obtain ⟨s, rfl, -⟩ | ⟨converted, -, hruns, -, hreply⟩ | ⟨-, hruns, -, hreply⟩ := call_cases m fs c
  · exact absurd hc (not_isExecution_set s)
  · exact iff_of_true hreply ⟨converted, hruns⟩
  · exact iff_of_false (by rw [hreply]; decide) (not_exists.2 (hruns hc))

/-- An execution that is refused is all there is to the call. -/
theorem call_of_execute_eq_fail {e : Error} (hc : c.isExecution)
    (h : m.execute fs = (m, .fail e fs)) : m.call fs c = (m, .executed (.fail e fs)) := by
  cases c with
  | set s => exact absurd hc (not_isExecution_set s)
  | hasConverted => cases hc
  | execute => rw [call, h]; rfl
  | executeWithProgress => rw [call, h]

theorem completed_set (m : Migration) (s : Setting) : (m.set s).completed = m.completed := by
  cases s <;> rfl

/-- A completed migration stays completed, and keeps its flag. -/
theorem completed_call_of_completed {converted : Bool} (h : m.completed = some converted) :
    (m.call fs c).1.completed = some converted ∧ (m.call fs c).2.isSuccess = false := by
  obtain ⟨s, -, hm, hreply⟩ | ⟨_, -, ⟨hpending, -⟩, -⟩ | ⟨-, -, hm, hreply⟩ := call_cases m fs c
  · exact ⟨by rw [hm, completed_set, h], hreply⟩
  · rw [h] at hpending
    cases hpending
  · exact ⟨by rw [hm, h], hreply⟩

/-- A pending migration stays pending unless the call succeeds. -/
theorem completed_call_of_not_isSuccess (h : (m.call fs c).2.isSuccess = false) :
    (m.call fs c).1.completed = m.completed := by
  obtain ⟨s, -, hm, -⟩ | ⟨_, -, -, -, hreply⟩ | ⟨-, -, hm, -⟩ := call_cases m fs c
  · rw [hm, completed_set]
  · rw [hreply] at h
    cases h
  · rw [hm]

theorem runs_of_isSuccess (h : (m.call fs c).2.isSuccess) :
    ∃ converted, m.Runs fs converted ∧ (m.call fs c).1 = { m with completed := some converted } := by
  obtain ⟨_, -, -, hreply⟩ | ⟨converted, -, hruns, hm, -⟩ | ⟨-, -, -, hreply⟩ := call_cases m fs c
  · rw [hreply] at h
    cases h
  · exact ⟨converted, hruns, hm⟩
  · rw [hreply] at h
    cases h

/-- No call but a setter changes a setting. -/
theorem unrun_call (m : Migration) (fs : FileSystem) (c : Call) :
    (m.call fs c).1.unrun = if c.isSetting then (m.unrun.call fs c).1 else m.unrun := by
  obtain ⟨s, rfl, hm, -⟩ | ⟨_, hc, -, hm, -⟩ | ⟨hc, -, hm, -⟩ := call_cases m fs c
  · cases s <;> rfl
  · rw [isSetting_of_isExecution hc, hm]
    rfl
  · rw [hc, hm]
    rfl

/-! ## Lists of calls -/

theorem after_cons (m : Migration) (fs : FileSystem) (c : Call) (h : History) :
    m.after ((fs, c) :: h) = (m.call fs c).1.after h :=
  rfl

theorem after_append (m : Migration) (h h' : History) : m.after (h ++ h') = (m.after h).after h' :=
  List.foldl_append

theorem completed_after_of_completed {converted : Bool} (hm : m.completed = some converted)
    (h : History) : (m.after h).completed = some converted := by
  induction h generalizing m with
  | nil => exact hm
  | cons step h ih => exact ih (completed_call_of_completed hm).1

/-- Without an execution that succeeds, a pending migration stays pending. -/
theorem completed_after_of_forall_not_isSuccess (hm : m.completed = none) (h : History)
    (hfail : ∀ before fs c rest, h = before ++ (fs, c) :: rest →
      ((m.after before).call fs c).2.isSuccess = false) :
    (m.after h).completed = none := by
  induction h generalizing m with
  | nil => exact hm
  | cons step h ih =>
    obtain ⟨fs, c⟩ := step
    have hstep := completed_call_of_not_isSuccess (hfail [] fs c h rfl)
    refine ih (hstep.trans hm) fun before fs' c' rest heq => ?_
    exact hfail ((fs, c) :: before) fs' c' rest (by rw [heq]; rfl)

/-- The settings are those of a migration on which only the setters were called. -/
theorem unrun_after (m : Migration) (h : History) :
    (m.after h).unrun = m.unrun.after (h.filter fun step => step.2.isSetting) := by
  induction h generalizing m with
  | nil => rfl
  | cons step h ih =>
    obtain ⟨fs, c⟩ := step
    rw [after_cons, ih, unrun_call]
    cases c <;> rfl

/-! ## Runs that succeed -/

/-- A file that holds no name, where a run in place succeeds. -/
def emptyFile : FileSystem := ⟨[([bytes "a"], .file [])], []⟩

/-- Whatever else is set, the run on an empty file succeeds. -/
theorem runs_emptyFile (h : m.completed = none) :
    ((m.set (.source (bytes "a"))).set (.destination (bytes "a"))).Runs emptyFile false := by
  refine ⟨h, bytes "a", bytes "a", rfl, rfl, ?_⟩
  have hfind : emptyFile.find? (bytes "a") = some (.file []) := by decide +kernel
  have hread : emptyFile.read? (bytes "a") = some [] := by decide +kernel
  have hsame : emptyFile.sameFile (bytes "a") (bytes "a") = true := by decide +kernel
  have hkind : ArtifactKind.of (bytes "a") [] = .passthrough := by decide +kernel
  have hdirectory : Edit.applyAll emptyFile [.makeDirectories (stagingDirectory (bytes "a"))] =
      (emptyFile, none) := by decide +kernel
  rw [transform, hfind]
  dsimp only
  rw [migrateFile, hdirectory]
  dsimp only
  have hstreamed : ∀ c : Conversion, c.isStreamed (bytes "a") [] = false := fun c => by
    rw [Conversion.isStreamed, List.take_nil, hkind]
    exact Bool.and_false _
  have hfile : ∀ c : Conversion, (c.file (bytes "a") []).result = .ok none := fun c => by
    rw [Conversion.file, List.take_nil, hkind]
    rfl
  simp only [hread, hstreamed, Bool.false_eq_true, if_false, Edit.applyAll, hfile, copyUnchanged, hsame,
    if_true]
  rfl

/-- **The life of a migration**, for every list of calls. Whether it changed anything is known from the
execution that succeeded, if there was one, and does not change any more. An execution that fails
changes nothing of the migration, so the next one can succeed. A completed migration refuses to run, and
so does one that does not know its paths, both before anything happens. -/
theorem lifecycle (history : History) :
    let m := new.after history
    (∀ before fs c rest, history = before ++ (fs, c) :: rest →
      ((new.after before).call fs c).2.isSuccess →
        ∃ converted, (new.after before).Runs fs converted ∧ m.hasConverted = .ok converted) ∧
    ((∀ before fs c rest, history = before ++ (fs, c) :: rest →
      ((new.after before).call fs c).2.isSuccess = false) → m.hasConverted = .error .notCompleted) ∧
    m.unrun = new.after (history.filter fun step => step.2.isSetting) ∧
    (∀ fs c, c.isExecution →
      ((m.call fs c).2.isSuccess ↔ ∃ converted, m.Runs fs converted) ∧
      ((m.call fs c).2.isSuccess = false → (m.call fs c).1 = m) ∧
      (m.hasConverted ≠ .error .notCompleted →
        m.call fs c = (m, .executed (.fail .alreadyCompleted fs))) ∧
      (m.hasConverted = .error .notCompleted → m.source = none ∨ m.destination = none →
        m.call fs c = (m, .executed (.fail .pathsMissing fs)))) ∧
    (m.hasConverted = .error .notCompleted → ∃ path fs,
      ((m.set (.source path)).set (.destination path)).Runs fs false) := by
  intro m
  refine ⟨?_, fun hfail => ?_, unrun_after new history, fun fs c hc => ⟨isSuccess_call_iff hc,
    call_of_not_isSuccess hc, fun h => ?_, fun h hpaths => ?_⟩,
    fun h => ⟨bytes "a", emptyFile, runs_emptyFile (hasConverted_eq_error_iff.1 h)⟩⟩
  · rintro before fs c rest rfl hsuccess
    obtain ⟨converted, hruns, hm⟩ := runs_of_isSuccess hsuccess
    refine ⟨converted, hruns, hasConverted_eq_ok_iff.2 ?_⟩
    rw [show m = ((new.after before).call fs c).1.after rest by rw [← after_cons, ← after_append]]
    exact completed_after_of_completed (by rw [hm]) rest
  · exact hasConverted_eq_error_iff.2 (completed_after_of_forall_not_isSuccess rfl history hfail)
  · obtain ⟨converted, hm⟩ := Option.ne_none_iff_exists'.1 (mt hasConverted_eq_error_iff.2 h)
    exact call_of_execute_eq_fail hc (execute_of_completed hm)
  · exact call_of_execute_eq_fail hc (execute_of_missing (hasConverted_eq_error_iff.1 h) hpaths)

end PackageMigration.Migration
