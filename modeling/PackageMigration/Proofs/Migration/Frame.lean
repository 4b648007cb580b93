import PackageMigration.Container.Zip
import PackageMigration.Proofs.Mapping.Order
import PackageMigration.Proofs.Migration.Staging
/-
  A run over a file changes the file at its destination and no other one.

  * `Succeeds`: what a run needs to succeed.

  Main statements: `migrateFile_cases` (how a run ends), `migrateFile_frame`.
-/
namespace PackageMigration.Migration

open FileSystem

variable {depth : Nat} {fs : FileSystem} {c : Conversion depth} {source destination content : Bytes}

/-! ## The staging directory -/

theorem names_stagingDirectory (h : Path.names (stagingDirectory destination) ≠ []) :
    Path.names (stagingDirectory destination) = (Path.names destination).dropLast ∧
      fs.start (stagingDirectory destination) = fs.start destination := by
  unfold stagingDirectory directoryOf? at h ⊢
  cases hdirectory : (Path.parent? destination).filter (· != []) with
  | none => rw [hdirectory] at h; exact absurd rfl h
  | some parent =>
    obtain ⟨hnames, hhead⟩ := Path.names_parent? (Option.filter_eq_some_iff.1 hdirectory).1
    refine ⟨hnames, ?_⟩
    simp only [FileSystem.start, Option.getD_some, hhead]

/-! ## How a run ends -/

/-- A run over a file succeeds where its staging directory is there. -/
structure Succeeds (c : Conversion depth) (source destination content : Bytes) (new : Option Bytes)
    (fs : FileSystem) : Prop where
  read : fs.read? source = some content
  staged : c.isStreamed source content → hasStagingRoom fs destination
  converted : (c.file source content).result = .ok new
  placed : new = none ∧ fs.sameFile source destination ∨
    hasStagingRoom fs destination ∧ fs.Placeable destination

theorem Succeeds.new_eq {content' : Bytes} {new new' : Option Bytes}
    (h : Succeeds c source destination content new fs)
    (h' : Succeeds c source destination content' new' fs) : new = new' := by
  obtain rfl := Option.some.inj (h.read.symm.trans h'.read)
  exact Except.ok.inj (h.converted.symm.trans h'.converted)

theorem settle_cases {α : Type} (destination content : Bytes) (answer : α) (fs : FileSystem) :
    (∃ fs', hasStagingRoom fs destination ∧ fs.place? destination content = some fs' ∧
      settle destination content answer fs = ⟨pure answer, fs'⟩) ∨
    ¬ (hasStagingRoom fs destination ∧ fs.Placeable destination) ∧
      ∃ path, settle destination content answer fs = .fail (.io path) fs := by
  rw [placeable_iff content, settle]
  cases hasStagingRoom fs destination with
  | false => exact .inr ⟨by simp, _, rfl⟩
  | true =>
    cases hplace : fs.place? destination content with
    | none => exact .inr ⟨by simp, _, rfl⟩
    | some fs' => exact .inl ⟨fs', rfl, rfl, rfl⟩

/-- How a run ends where its staging directory is there and its source can be read. -/
theorem migrateStaged_cases (h : fs.isDirectory (stagingDirectory destination))
    (hread : fs.read? source = some content) :
    let o := migrateStaged c source destination fs
    (∃ new, (c.file source content).result = .ok new ∧ o.run.result = .ok new.isSome ∧
      (new = none ∧ fs.sameFile source destination ∧ o.files = fs ∨
        hasStagingRoom fs destination ∧ fs.place? destination (new.getD content) = some o.files)) ∨
    (∀ new, (c.file source content).result = .ok new →
      ¬ (new = none ∧ fs.sameFile source destination ∨
        hasStagingRoom fs destination ∧ fs.Placeable destination)) ∧
      (∃ e, o.run.result = .error e) ∧ o.files = fs := by
  rw [migrateStaged_eq c h hread]
  cases hresult : (c.file source content).result with
  | error e => exact .inr ⟨nofun, ⟨e, rfl⟩, rfl⟩
  | ok new =>
    dsimp only
    by_cases hsame : new = none ∧ fs.sameFile source destination
    · rw [if_pos hsame]
      obtain ⟨rfl, hsame⟩ := hsame
      exact .inl ⟨none, rfl, rfl, .inl ⟨rfl, hsame, rfl⟩⟩
    · rw [if_neg hsame]
      rcases settle_cases destination (new.getD content) new.isSome fs with
        ⟨fs', hroom, hplace, hsettle⟩ | ⟨hnot, path, hsettle⟩
      · rw [hsettle]
        exact .inl ⟨new, rfl, rfl, .inr ⟨hroom, hplace⟩⟩
      · rw [hsettle]
        refine .inr ⟨fun new' hnew => ?_, ⟨_, rfl⟩, rfl⟩
        cases hnew
        exact not_or.2 ⟨hsame, hnot⟩

/-- **How a run over a file ends.** -/
theorem migrateFile_cases (c : Conversion depth) (source destination : Bytes) (fs : FileSystem) :
    let made := fs.makeDirectories (stagingDirectory destination)
    let o := migrateFile c source destination fs
    (∃ content new, made.2 = true ∧ Succeeds c source destination content new made.1 ∧
      o.run.result = .ok new.isSome ∧
      (new = none ∧ made.1.sameFile source destination ∧ o.files = made.1 ∨
        made.1.place? destination (new.getD content) = some o.files)) ∨
    (∀ content new, ¬ (made.2 = true ∧ Succeeds c source destination content new made.1)) ∧
      (∃ e, o.run.result = .error e) ∧ o.files = made.1 := by
  have hthere := @isDirectory_of_makeDirectories fs _ (stagingDirectory_ne_nil destination)
  rw [migrateFile_eq]
  dsimp only
  generalize fs.makeDirectories (stagingDirectory destination) = made at hthere
  obtain ⟨fs₁, _ | _⟩ := made
  · exact .inr ⟨by simp, ⟨_, rfl⟩, rfl⟩
  dsimp only at hthere ⊢
  cases hread : fs₁.read? source with
  | none =>
    have hfail : migrateStaged c source destination fs₁ = .fail (.io source) fs₁ := by
      rw [migrateStaged, hread]
    rw [hfail, if_neg (by simp)]
    refine .inr ⟨fun content new h => ?_, ⟨_, rfl⟩, rfl⟩
    cases hread.symm.trans h.2.read
  | some content =>
    have hcontent : ∀ {content' new}, Succeeds c source destination content' new fs₁ →
        content' = content := fun h => Option.some.inj (h.read.symm.trans hread)
    by_cases hstaged : c.isStreamed source content → hasStagingRoom fs₁ destination
    · rw [if_neg (by simpa using hstaged)]
      rcases migrateStaged_cases (hthere rfl) hread with ⟨new, hnew, hok, hplaced⟩ | ⟨hnot, hfail⟩
      · refine .inl ⟨content, new, rfl, ⟨hread, hstaged, hnew, ?_⟩, hok, hplaced.imp_right And.right⟩
        exact hplaced.imp (fun h => ⟨h.1, h.2.1⟩) fun h => ⟨h.1, (placeable_iff _).2 ⟨_, h.2⟩⟩
      · refine .inr ⟨fun content' new h => ?_, hfail⟩
        obtain rfl := hcontent h.2
        exact hnot new h.2.converted h.2.placed
    · rw [if_pos (by simpa using hstaged)]
      refine .inr ⟨fun content' new h => ?_, ⟨_, rfl⟩, rfl⟩
      obtain rfl := hcontent h.2
      exact hstaged h.2.staged

/-! ## What a run leaves -/

/-- Afterwards the destination leads to the only file that is another one than before. -/
theorem Succeeds.exists_location {new : Option Bytes} {files : FileSystem}
    (h : Succeeds c source destination content new fs)
    (hfiles : new = none ∧ fs.sameFile source destination ∧ files = fs ∨
      fs.place? destination (new.getD content) = some files) :
    ∃ l, files.reach? destination = some l ∧ fs.node? l ≠ some .directory ∧
      ∀ k, files.node? k = if k = l then some (.file (new.getD content)) else fs.node? k := by
  rcases hfiles with ⟨rfl, hsame, rfl⟩ | hplace
  · obtain ⟨l, hsource, hdestination⟩ := sameFile_iff.1 hsame
    obtain ⟨-, -, -, hfile⟩ := read?_eq_some_iff.1 h.read
    rw [← (resolve?_eq_some hsource).2, file?_eq_some_iff] at hfile
    refine ⟨l, (Option.filter_eq_some_iff.1 hdestination).1, by simp [hfile], fun k => ?_⟩
    split
    next hk => rw [hk, hfile]; rfl
    next => rfl
  · exact ⟨_, reach?_of_place? hplace⟩

theorem directory_migrateFile_iff (c : Conversion depth) (source destination : Bytes) (fs : FileSystem)
    (k : Location) : (migrateFile c source destination fs).files.node? k = some .directory ↔
      (fs.makeDirectories (stagingDirectory destination)).1.node? k = some .directory := by
  rcases migrateFile_cases c source destination fs with ⟨content, new, -, h, -, hfiles⟩ | ⟨-, -, hfiles⟩
  · obtain ⟨l, -, hl, hnode⟩ := h.exists_location hfiles
    rw [hnode]
    split
    next hk => exact iff_of_false nofun (hk ▸ hl)
    next => rfl
  · exact hfiles ▸ Iff.rfl

/-- New directories are on the way to the destination. -/
theorem exists_follow_of_migrateFile {k : Location} (hold : fs.node? k = none)
    (hnew : (migrateFile c source destination fs).files.node? k = some .directory) :
    ∃ front, front ≠ [] ∧ front <+: (Path.names destination).dropLast ∧
      k = follow (fs.start destination) front := by
  have hmade := (directory_migrateFile_iff c source destination fs k).1 hnew
  obtain ⟨front, hne, hfront, rfl⟩ := exists_follow_of_makeDirectoriesWithin hold (by
    change (fs.makeDirectories (stagingDirectory destination)).1.node? k ≠ none
    simp [hmade])
  obtain ⟨hnames, hstart⟩ := names_stagingDirectory fun hnil => hne (List.prefix_nil.1 (hnil ▸ hfront))
  exact ⟨front, hne, hnames ▸ hfront, by rw [hstart]⟩

/-- When a run over a file succeeds, and with which answer. -/
theorem result_migrateFile_eq_ok_iff {converted : Bool} :
    (migrateFile c source destination fs).run.result = .ok converted ↔
      ∃ content new, (fs.makeDirectories (stagingDirectory destination)).2 = true ∧
        Succeeds c source destination content new (fs.makeDirectories (stagingDirectory destination)).1 ∧
        converted = new.isSome := by
  rcases migrateFile_cases c source destination fs with
    ⟨content, new, hmade, h, hok, -⟩ | ⟨hnot, ⟨e, he⟩, -⟩
  · rw [hok, Except.ok.injEq]
    refine ⟨fun hc => ⟨content, new, hmade, h, hc.symm⟩, ?_⟩
    rintro ⟨content', new', -, h', rfl⟩
    rw [h.new_eq h']
  · refine iff_of_false (fun hok => ?_) ?_
    · cases he.symm.trans hok
    · rintro ⟨content, new, hmade, h, -⟩
      exact hnot content new ⟨hmade, h⟩

/-- **A run over a file changes the file at its destination and no other one.** If it fails, every file
is as it was. If it succeeds, the destination leads to a file with the converted content, or with the
content of the source if nothing was converted. Directories stay, and new ones are on the way to the
destination. It succeeds if the source can be read and converted and there is room and a place for
the file, or nothing is to be done; and nothing is left of the files that are staged for a while. -/
theorem migrateFile_frame (c : Conversion depth) (source destination : Bytes) (fs : FileSystem) :
    let made := fs.makeDirectories (stagingDirectory destination)
    let o := migrateFile c source destination fs
    (∀ e, o.run.result = .error e → ∀ k, o.files.file? k = fs.file? k) ∧
    (∀ converted, o.run.result = .ok converted → ∃ content new l,
      fs.file? (fs.locationOf source) = some content ∧ (c.file source content).result = .ok new ∧
      converted = new.isSome ∧ o.files.reach? destination = some l ∧
      o.files.file? l = some (new.getD content) ∧ ∀ k, k ≠ l → o.files.file? k = fs.file? k) ∧
    (∀ k, fs.node? k = some .directory → o.files.node? k = some .directory) ∧
    (∀ k, fs.node? k = none → o.files.node? k = some .directory → ∃ front, front ≠ [] ∧
      front <+: (Path.names destination).dropLast ∧ k = follow (fs.start destination) front) ∧
    (∀ converted, o.run.result = .ok converted ↔ ∃ content new, made.2 = true ∧
      Succeeds c source destination content new made.1 ∧ converted = new.isSome) ∧
    ∀ first second, IsFree made.1 destination first → IsFree made.1 destination second →
      migrateFileThrough c first second source destination fs = o := by
  intro made o
  have hgrown : Grown fs made.1 := grown_makeDirectories fs _
  refine ⟨fun e he k => ?_, fun converted hconverted => ?_,
    fun k hk => (directory_migrateFile_iff c source destination fs k).2 (hgrown.directory hk),
    fun k => exists_follow_of_migrateFile, fun converted => result_migrateFile_eq_ok_iff,
    fun first second => migrateFileThrough_eq c⟩
  · rcases migrateFile_cases c source destination fs with ⟨_, _, -, -, hok, -⟩ | ⟨-, -, hfiles⟩
    · cases hok.symm.trans he
    · exact hfiles ▸ hgrown.file? k
  · rcases migrateFile_cases c source destination fs with
      ⟨content, new, -, h, hok, hfiles⟩ | ⟨-, ⟨_, he⟩, -⟩
    · obtain ⟨l, hreach, -, hnode⟩ := h.exists_location hfiles
      obtain ⟨-, -, -, hsource⟩ := read?_eq_some_iff.1 h.read
      rw [hgrown.file?, locationOf_congr hgrown.here] at hsource
      refine ⟨content, new, l, hsource, h.converted, Except.ok.inj (hconverted.symm.trans hok), hreach,
        ?_, fun k hk => ?_⟩
      · rw [file?_eq_some_iff, hnode, if_pos rfl]
      · rw [file?_congr ((hnode k).trans (if_neg hk)), hgrown.file?]
    · cases he.symm.trans hconverted

/-- A file that holds a mapped name, beside a directory. -/
def mappedFile : FileSystem where
  nodes := [([bytes "A.java"], .file (bytes "javax.el.A")), ([bytes "d"], .directory)]
  here := []

/-- A file is converted into a new directory, and does not take the place of a directory. -/
theorem migrateFile_frame_mappedFile :
    let c : Conversion := ⟨Container.zip, Profile.tomcat.table, .spooled⟩
    let o := migrateFile c (bytes "A.java") (bytes "n/B.java") mappedFile
    let failed := migrateFile c (bytes "A.java") (bytes "d") mappedFile
    let name := bytes ".tmp4kS1xQ"
    (o.run.result = .ok true ∧ o.files.file? [bytes "n", bytes "B.java"] = some (bytes "jakarta.el.A") ∧
      ∀ k, k ≠ [bytes "n", bytes "B.java"] → o.files.file? k = mappedFile.file? k) ∧
    (failed.run.result = .error (.io (bytes "d")) ∧ ∀ k, failed.files.file? k = mappedFile.file? k) ∧
    migrateFileThrough c name name (bytes "A.java") (bytes "n/B.java") mappedFile = o := by
  intro c o failed name
  have hc : c = ⟨Container.zip, Profile.orderedTable .tomcat, .spooled⟩ := by
    rw [← Profile.table_eq_orderedTable]
  have hfile : (c.file (bytes "A.java") (bytes "javax.el.A")).result =
      .ok (some (bytes "jakarta.el.A")) := by
    rw [hc]
    decide +kernel
  have hok : o.run.result = .ok true ∧
      o.files.reach? (bytes "n/B.java") = some [bytes "n", bytes "B.java"] := by
    unfold o
    rw [hc]
    decide +kernel
  have hfail : failed.run.result = .error (.io (bytes "d")) := by
    unfold failed
    rw [hc]
    decide +kernel
  have hsource : mappedFile.file? (mappedFile.locationOf (bytes "A.java")) =
      some (bytes "javax.el.A") := by
    decide +kernel
  have hname : IsFree (mappedFile.makeDirectories (stagingDirectory (bytes "n/B.java"))).1
      (bytes "n/B.java") name := ⟨by decide, by decide +kernel⟩
  obtain ⟨-, hframe, -, -, -, hstaged⟩ :=
    migrateFile_frame c (bytes "A.java") (bytes "n/B.java") mappedFile
  obtain ⟨content, new, l, hcontent, hnew, -, hreach, hl, hother⟩ := hframe true hok.1
  obtain rfl := Option.some.inj (hsource.symm.trans hcontent)
  obtain rfl := Except.ok.inj (hfile.symm.trans hnew)
  obtain rfl := Option.some.inj (hok.2.symm.trans hreach)
  exact ⟨⟨hok.1, hl, hother⟩,
    ⟨hfail, (migrateFile_frame c (bytes "A.java") (bytes "d") mappedFile).1 _ hfail⟩,
    hstaged name name hname hname⟩

end PackageMigration.Migration
