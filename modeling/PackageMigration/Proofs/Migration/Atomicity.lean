import PackageMigration.Container.Zip
import PackageMigration.Proofs.Mapping.Order
import PackageMigration.Proofs.Migration.Tree
/-
  What a run over a tree leaves when it fails.

  * `Transfer.IsEntered`: where the planned tree has directories.
  * `Fits`: no planned file meets a directory, and no planned directory a file.
  * `IsReady`: a state between two changes from which the rest of the plan can be made.

  Main statements: `exists_applyAll_edits` (a plan that fits can be made as a whole),
  `migrateDirectory_atomic` (a run that fails changes no file and leaves no destination).
-/
namespace PackageMigration.Migration

open FileSystem
open PackageMigration.Path (IsName)

variable {depth : Nat}

/-- A directory of the planned tree stands at the location or below it, or a file below it. -/
def Transfer.IsEntered (m : Transfer) (t : Table) (fs : FileSystem) (k : Location) : Prop :=
  (∃ l ∈ m.directories fs, k <+: m.directoryPlace t l) ∨
    ∃ f ∈ m.files fs, k <+: m.filePlace t f.1 ∧ k ≠ m.filePlace t f.1

/-- The planned tree fits into the file system: its paths are short enough, and no file of the one
stands where the other has a directory. -/
structure Fits (t : Table) (m : Transfer) (fs : FileSystem) : Prop where
  directory : ∀ l ∈ m.directories fs, (m.directoryPlace t l).IsShort
  file : ∀ f ∈ m.files fs, (m.filePlace t f.1).IsShort
  free : ∀ k, m.IsEntered t fs k → fs.file? k = none
  vacant : ∀ f ∈ m.files fs, fs.node? (m.filePlace t f.1) ≠ some .directory
  apart : ∀ f ∈ m.files fs, ¬ m.IsEntered t fs (m.filePlace t f.1)

/-- In the middle of the changes the planned tree still fits, and every node that was there is. -/
structure IsReady (t : Table) (m : Transfer) (fs files : FileSystem) : Prop where
  free : ∀ k, m.IsEntered t fs k → files.file? k = none
  vacant : ∀ f ∈ m.files fs, files.node? (m.filePlace t f.1) ≠ some .directory
  directory : ∀ k, fs.node? k = some .directory → files.node? k = some .directory
  file : ∀ k, fs.file? k ≠ none → files.file? k ≠ none

section
variable {t : Table} {m : Transfer} {fs files : FileSystem}

theorem Fits.isReady (h : Fits t m fs) : IsReady t m fs fs :=
  ⟨h.free, h.vacant, fun _ => id, fun _ => id⟩

theorem ne_file_of_file?_eq_none {k : Location} (h : files.file? k = none) (content : Bytes) :
    files.node? k ≠ some (.file content) := by
  intro hn
  rw [file?_eq_some_iff.2 hn] at h
  cases h

namespace IsReady

/-- The planned tree still fits after a change that makes planned directories and places planned
files. -/
theorem of_changed (h : IsReady t m fs files) (hfit : Fits t m fs) {files' : FileSystem}
    (hchanged : ∀ k, files'.node? k = files.node? k ∨
      (m.IsEntered t fs k ∧ files'.node? k = some .directory) ∨
        ∃ f ∈ m.files fs, k = m.filePlace t f.1 ∧ ∃ content, files'.node? k = some (.file content)) :
    IsReady t m fs files' where
  free k hk := by
    rcases hchanged k with hn | ⟨-, hn⟩ | ⟨f, hf, rfl, -⟩
    · rw [file?_congr hn, h.free k hk]
    · exact file?_eq_none_of_directory hn
    · exact absurd hk (hfit.apart f hf)
  vacant f hf := by
    rcases hchanged (m.filePlace t f.1) with hn | ⟨hk, -⟩ | ⟨-, -, -, content, hn⟩
    · rw [hn]
      exact h.vacant f hf
    · exact absurd hk (hfit.apart f hf)
    · rw [hn]
      nofun
  directory k hk := by
    rcases hchanged k with hn | ⟨-, hn⟩ | ⟨f, hf, rfl, -⟩
    · rw [hn, h.directory k hk]
    · exact hn
    · exact absurd hk (hfit.vacant f hf)
  file k hk := by
    rcases hchanged k with hn | ⟨hentered, -⟩ | ⟨-, -, -, content, hn⟩
    · rw [file?_congr hn]
      exact h.file k hk
    · exact absurd (hfit.free k hentered) hk
    · rw [file?_eq_some_iff.2 hn]
      nofun

/-- A planned directory can be made, and the rest still can. -/
theorem makeDirectories (h : IsReady t m fs files) (hfit : Fits t m fs) {l : Location}
    (hl : l ∈ m.directories fs) (hname : ∀ p ∈ m.directoryPlace t l, IsName p) :
    ∃ files', Edit.applyAll files [.makeDirectories (m.directoryPlace t l).path] = (files', none) ∧
      IsReady t m fs files' := by
  have hentered : ∀ {k}, k <+: m.directoryPlace t l → m.IsEntered t fs k := fun hk => .inl ⟨l, hl, hk⟩
  obtain ⟨hmade, hnode⟩ := makeDirectories_path ⟨hfit.directory l hl, hname⟩ fun k hk =>
    ne_file_of_file?_eq_none (h.free k (hentered hk))
  refine ⟨_, by rw [applyAll_makeDirectories, hmade]; rfl, h.of_changed hfit fun k => ?_⟩
  rw [hnode]
  by_cases hk : k <+: m.directoryPlace t l
  · rw [if_pos hk]
    exact .inr (.inl ⟨hentered hk, rfl⟩)
  · rw [if_neg hk]
    exact .inl rfl

/-- A planned file can be put in place, and the rest still can. -/
theorem commit (h : IsReady t m fs files) (hfit : Fits t m fs) {f : Location × Bytes}
    (hf : f ∈ m.files fs) (hname : ∀ p ∈ m.filePlace t f.1, IsName p) (content : Bytes) :
    ∃ files', Edit.applyAll files (Migration.commit (m.filePlace t f.1).path content) =
        (files', none) ∧ IsReady t m fs files' := by
  have hentered : ∀ {k}, k <+: m.filePlace t f.1 → k ≠ m.filePlace t f.1 → m.IsEntered t fs k :=
    fun hk hne => .inr ⟨f, hf, hk, hne⟩
  have habove : ∀ k, k <+: m.filePlace t f.1 → k ≠ m.filePlace t f.1 →
      ∀ content, files.node? k ≠ some (.file content) :=
    fun k hk hne => ne_file_of_file?_eq_none (h.free k (hentered hk hne))
  obtain ⟨files', happly, hnode⟩ := applyAll_commit_of_free (filePlace_ne_nil m t f.1)
    ⟨hfit.file f hf, hname⟩ habove (h.vacant f hf) content
  refine ⟨files', happly, h.of_changed hfit fun k => ?_⟩
  rw [hnode]
  by_cases he : k = m.filePlace t f.1
  · rw [if_pos he]
    exact .inr (.inr ⟨f, hf, he, content, rfl⟩)
  rw [if_neg he]
  by_cases hk : k <+: m.filePlace t f.1
  · rw [if_pos hk]
    exact .inr (.inl ⟨hentered hk he, rfl⟩)
  · rw [if_neg hk]
    exact .inl rfl

end IsReady

end

/-! ## Plans -/

/-- **A plan that fits can be made as a whole.** -/
theorem exists_applyAll_edits {c : Conversion depth} {m : Transfer} {fs : FileSystem} {plan : TreePlan}
    (hfs : fs.WellFormed) (hd : ∀ p ∈ m.destination, IsName p)
    (hplan : (planTree c m fs).result = .ok plan) (hfit : Fits c.table m fs) :
    ∃ files, Edit.applyAll fs (plan.edits m.inPlace) = (files, none) := by
  obtain ⟨fs₁, hmake, h₁⟩ := Edit.exists_applyAll_flatMap
    (fun l hl files (h : IsReady c.table m fs files) =>
      h.makeDirectories hfit hl (isName_directoryPlace hfs hd hl)) hfit.isReady
  have hstep : ∀ f ∈ m.files fs, ∀ files, IsReady c.table m fs files → ∃ files',
      Edit.applyAll files (((plannedFile c m f).content.map
        (commit (m.filePlace c.table f.1).path)).getD []) = (files', none) ∧
          IsReady c.table m fs files' := by
    intro f hf files h
    cases (plannedFile c m f).content with
    | none => exact ⟨files, rfl, h⟩
    | some content => exact h.commit hfit hf (isName_filePlace hfs hd hf) content
  obtain ⟨fs₂, hcommit, h₂⟩ := Edit.exists_applyAll_flatMap hstep h₁
  have hleaving : ∀ l ∈ m.leaving c.table fs, l.IsProper ∧ fs₂.IsOpen l ∧ fs₂.file? l ≠ none := by
    intro l hl
    obtain ⟨f, hf, rfl⟩ := List.mem_map.1 hl
    have hf := (List.mem_filter.1 hf).1
    have hfile := ((mem_files_iff hfs).1 hf).1
    have hnode : fs.node? f.1 ≠ none := by
      rw [file?_eq_some_iff.1 hfile]
      nofun
    have hshort : Location.IsShort f.1 :=
      ⟨fun p hp => (hfs.isName hnode p hp).2, (planTree_eq_ok hplan).2.2.2 f hf⟩
    refine ⟨⟨hshort, fun p hp => (hfs.isName hnode p hp).1⟩,
      fun k hk hne => h₂.directory k (hfs.isOpen hnode k hk hne), h₂.file _ ?_⟩
    rw [hfile]
    nofun
  obtain ⟨files, hremove⟩ := applyAll_remove_of_file (nodup_leaving hfs) hleaving
  refine ⟨files, ?_⟩
  rw [edits_of_planTree hd hplan, Edit.applyAll_append_eq_none_iff]
  refine ⟨fs₂, Edit.applyAll_append_eq_none_iff.2 ⟨fs₁, ?_, hcommit⟩, hremove⟩
  rw [List.map_eq_flatMap]
  exact hmake

/-! ## Runs -/

/-- **A run that fails changes no file and leaves no destination that it made**, provided that the
planned tree fits once everything is converted. Names of files are texts (`Location`). -/
theorem migrateDirectory_atomic {c : Conversion depth} {source destination : Bytes} {fs : FileSystem}
    {e : Error} (hfs : fs.WellFormed)
    (hfit : ∀ m plan, transfer? source destination (fs.makeDirectories destination).1 = .ok m →
      (planTree c m (fs.makeDirectories destination).1).result = .ok plan →
        Fits c.table m (fs.makeDirectories destination).1)
    (h : (migrateDirectory c source destination fs).run.result = .error e) :
    (∀ l, (migrateDirectory c source destination fs).files.file? l = fs.file? l) ∧
      (fs.HasReturns destination → ¬ fs.isDirectory destination →
        ¬ (migrateDirectory c source destination fs).files.isDirectory destination) := by
  have hgrown := grown_makeDirectories fs destination
  rcases migrateDirectory_cases c source destination fs with
    ⟨hmade, -, hfiles⟩ | ⟨-, -, hfiles⟩ | ⟨hmade, m, plan, htransfer, hplan, hedits⟩
  · rw [hfiles]
    refine ⟨hgrown.file?, fun hr hnot hdir => ?_⟩
    rw [(of_isDirectory_makeDirectories hfs hr hnot hdir).2.1] at hmade
    cases hmade
  · rw [hfiles]
    refine ⟨fun l => ?_, fun hr hnot => ?_⟩
    · split
      · exact hgrown.file? l
      · rw [file?_removeDirectory, hgrown.file?]
    · split
      next hnode =>
        intro hdir
        obtain ⟨n, hn⟩ := Option.isSome_iff_exists.1 hnode
        have hn := node?_of_find? hn
        rw [(of_isDirectory_makeDirectories hfs hr hnot hdir).1] at hn
        cases hn
      next => exact not_isDirectory_removeDirectory hfs hr hnot
  · obtain ⟨-, hdestination, hpath⟩ := transfer?_eq_ok htransfer
    have hnode := node?_of_makeDirectories hpath hmade
    rw [← locationOf_congr hgrown.here, ← hdestination] at hnode
    have hfs₁ := hgrown.wellFormed hfs
    obtain ⟨files, hnone⟩ := exists_applyAll_edits hfs₁
      (hfs₁.isName_of_node? hnode) hplan (hfit m plan htransfer hplan)
    rcases hedits with ⟨path, -, hsome⟩ | ⟨hok, -⟩
    · rw [hnone] at hsome
      cases hsome
    · rw [hok] at h
      cases h

/-- A tree with a class that is cut off. -/
def brokenTree : FileSystem where
  nodes := [([bytes "s"], .directory), ([bytes "s", bytes "A.java"], .file (bytes "javax.el.A")),
    ([bytes "s", bytes "Z.class"], .file [0xCA, 0xFE, 0xBA, 0xBE])]
  here := []

theorem fits_brokenTree : Fits Profile.tomcat.table ⟨bytes "s", [bytes "s"], [bytes "d"]⟩
    (brokenTree.set [bytes "d"] .directory) := by
  generalize hfs : brokenTree.set [bytes "d"] .directory = fs
  generalize hm : (⟨bytes "s", [bytes "s"], [bytes "d"]⟩ : Transfer) = m
  have hdirectories : m.directories fs = [] := by
    subst hfs hm
    unfold Transfer.directories Transfer.nodes
    rw [below_of_pairwise (by decide +kernel)]
    decide +kernel
  have hfiles : m.files fs = [([bytes "s", bytes "A.java"], bytes "javax.el.A"),
      ([bytes "s", bytes "Z.class"], [0xCA, 0xFE, 0xBA, 0xBE])] := by
    subst hfs hm
    unfold Transfer.files Transfer.nodes
    rw [below_of_pairwise (by decide +kernel)]
    decide +kernel
  have hplaces : ∀ f ∈ m.files fs, ∃ name ∈ [bytes "A.java", bytes "Z.class"],
      m.filePlace Profile.tomcat.table f.1 = [bytes "d", name] := by
    rw [hfiles, Profile.table_eq_orderedTable]
    subst hm
    decide +kernel
  have hentered : ∀ k, m.IsEntered Profile.tomcat.table fs k → k = [] ∨ k = [bytes "d"] := by
    rintro k (⟨l, hl, -⟩ | ⟨f, hf, hk, hne⟩)
    · rw [hdirectories] at hl
      cases hl
    · obtain ⟨name, -, hplace⟩ := hplaces f hf
      rw [hplace] at hk hne
      have hinits := (List.mem_inits k _).2 hk
      simp only [List.inits, List.map_cons, List.map_nil, List.mem_cons, List.not_mem_nil,
        or_false] at hinits
      rcases hinits with rfl | rfl | rfl
      · exact .inl rfl
      · exact .inr rfl
      · exact absurd rfl hne
  refine ⟨by rw [hdirectories]; nofun, fun f hf => ?_, fun k hk => ?_, fun f hf => ?_,
    fun f hf hk => ?_⟩
  · obtain ⟨name, hname, hplace⟩ := hplaces f hf
    rw [hplace]
    clear hplace
    revert name
    decide +kernel
  · subst hfs
    rcases hentered k hk with rfl | rfl <;> decide +kernel
  · obtain ⟨name, hname, hplace⟩ := hplaces f hf
    rw [hplace]
    subst hfs
    clear hplace
    revert name
    decide +kernel
  · obtain ⟨name, -, hplace⟩ := hplaces f hf
    rw [hplace] at hk
    rcases hentered _ hk with h | h <;> cases h

theorem migrateDirectory_atomic_brokenTree :
    let c : Conversion := ⟨Container.zip, Profile.tomcat.table, .inMemory⟩
    let o := migrateDirectory c (bytes "s") (bytes "d") brokenTree
    brokenTree.WellFormed ∧ (∃ e, o.run.result = .error e) ∧ brokenTree.HasReturns (bytes "d") ∧
      ¬ brokenTree.isDirectory (bytes "d") ∧ ¬ o.files.isDirectory (bytes "d") ∧
        ∀ l, o.files.file? l = brokenTree.file? l := by
  have hfs : brokenTree.WellFormed := by decide +kernel
  have hmade : brokenTree.makeDirectories (bytes "d") =
      (brokenTree.set [bytes "d"] .directory, true) := by
    decide +kernel
  have htransfer : transfer? (bytes "s") (bytes "d") (brokenTree.set [bytes "d"] .directory) =
      .ok ⟨bytes "s", [bytes "s"], [bytes "d"]⟩ := by
    decide +kernel
  have hplan : ∀ plan, (planTree (⟨Container.zip, Profile.tomcat.table, .inMemory⟩ : Conversion)
      ⟨bytes "s", [bytes "s"], [bytes "d"]⟩ (brokenTree.set [bytes "d"] .directory)).result ≠
        .ok plan := by
    intro plan hplan
    have hfails : (planTree (⟨Container.zip, Profile.tomcat.table, .inMemory⟩ : Conversion)
        ⟨bytes "s", [bytes "s"], [bytes "d"]⟩
        (brokenTree.set [bytes "d"] .directory)).result.isOk = false := by
      unfold planTree Transfer.nodes
      rw [below_of_pairwise (by decide +kernel), Profile.table_eq_orderedTable]
      decide +kernel
    rw [hplan] at hfails
    cases hfails
  obtain ⟨⟨e, herror⟩, -⟩ := migrateDirectory_of_no_plan hmade fun m plan hm => by
    obtain rfl := Except.ok.inj (htransfer.symm.trans hm)
    exact hplan plan
  have hreturns : brokenTree.HasReturns (bytes "d") := by
    intro front rest hnames
    have habove : Path.above ∈ Path.names (bytes "d") := by simp [hnames]
    exact absurd habove (by decide +kernel)
  have hnot : ¬ brokenTree.isDirectory (bytes "d") := by decide +kernel
  obtain ⟨hfiles, hdestination⟩ := migrateDirectory_atomic hfs (fun m plan hm _ => by
    rw [hmade] at hm ⊢
    obtain rfl := Except.ok.inj (htransfer.symm.trans hm)
    exact fits_brokenTree) herror
  exact ⟨hfs, ⟨e, herror⟩, hreturns, hnot, hdestination hreturns hnot, hfiles⟩

/-- A file and a directory of a tree come to meet. -/
def meetingTree : FileSystem where
  nodes := [([bytes "s"], .directory), ([bytes "s", bytes "jakarta"], .directory),
    ([bytes "s", bytes "jakarta", bytes "el"], .directory),
    ([bytes "s", bytes "jakarta", bytes "el", bytes "A.txt"], .file (bytes "first")),
    ([bytes "s", bytes "javax"], .directory),
    ([bytes "s", bytes "javax", bytes "el"], .file (bytes "second"))]
  here := []

/-- A run that fails when it puts files in place leaves those that are. -/
theorem migrateDirectory_not_atomic :
    let c : Conversion := ⟨Container.zip, Profile.tomcat.table, .inMemory⟩
    let o := migrateDirectory c (bytes "s") (bytes "d") meetingTree
    meetingTree.WellFormed ∧ o.run.result = .error (.io (bytes "/d/jakarta/el")) ∧
      ¬ meetingTree.isDirectory (bytes "d") ∧ o.files.isDirectory (bytes "d") ∧
      meetingTree.file? [bytes "d", bytes "jakarta", bytes "el", bytes "A.txt"] = none ∧
      o.files.file? [bytes "d", bytes "jakarta", bytes "el", bytes "A.txt"] =
        some (bytes "first") := by
  have hmade : meetingTree.makeDirectories (bytes "d") =
      (meetingTree.set [bytes "d"] .directory, true) := by
    decide +kernel
  have htransfer : transfer? (bytes "s") (bytes "d") (meetingTree.set [bytes "d"] .directory) =
      .ok ⟨bytes "s", [bytes "s"], [bytes "d"]⟩ := by
    decide +kernel
  have hplan : (planTree (⟨Container.zip, Profile.tomcat.table, .inMemory⟩ : Conversion)
      ⟨bytes "s", [bytes "s"], [bytes "d"]⟩ (meetingTree.set [bytes "d"] .directory)).result =
      .ok ⟨[bytes "/d/jakarta", bytes "/d/jakarta/el", bytes "/d/javax"],
        [⟨bytes "/s/jakarta/el/A.txt", bytes "/d/jakarta/el/A.txt", false, some (bytes "first")⟩,
          ⟨bytes "/s/javax/el", bytes "/d/jakarta/el", true, some (bytes "second")⟩], true⟩ := by
    unfold planTree Transfer.nodes
    rw [below_of_pairwise (by decide +kernel), Profile.table_eq_orderedTable]
    decide +kernel
  obtain ⟨hresult, hfiles⟩ := migrateDirectory_of_plan hmade htransfer hplan
  intro c o
  rw [hresult, hfiles]
  decide +kernel

end PackageMigration.Migration
