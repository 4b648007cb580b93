import PackageMigration.Proofs.Migration.Atomicity
import PackageMigration.Proofs.Migration.InPlace
/-
  A tree that is migrated into a directory that was not there.

  * `Arrives`: a file of a tree, converted and under its new name.
  * `IsMigrated`: a file system in which a tree has been migrated into a new directory.
  * `IsFresh`: the destination of a tree was made where nothing was.

  Main statements: `directory_of_applyAll_edits` (the directories after a plan was carried out),
  `IsFresh.isMigrated`, `migrateDirectory_complete`.
-/
namespace PackageMigration.Migration

open FileSystem
open PackageMigration.Path (IsName)

variable {depth : Nat}

/-! ## Directories -/

section
variable {c : Conversion depth} {m : Transfer} {fs files : FileSystem} {plan : TreePlan}

theorem node?_congr {k : Location} (hfile : files.file? k = fs.file? k)
    (hdirectory : files.node? k = some .directory ↔ fs.node? k = some .directory) :
    files.node? k = fs.node? k := by
  ext n
  cases n with
  | file content => rw [← file?_eq_some_iff, ← file?_eq_some_iff, hfile]
  | directory => exact hdirectory

/-- A file that is not put in place stands there already. -/
theorem filePlace_of_content_eq_none (hfs : fs.WellFormed) {f : Location × Bytes} (hf : f ∈ m.files fs)
    (h : (plannedFile c m f).content = none) : m.filePlace c.table f.1 = f.1 := by
  obtain ⟨hfile, hsource, hne, -⟩ := (mem_files_iff hfs).1 hf
  obtain ⟨-, hin, hname⟩ := content_plannedFile_eq_none_iff.1 h
  exact filePlace_eq_self hin hsource hne (hfs.isName_of_file? hfile) hname

/-- **The directories after a plan was carried out** are the old ones and those of the planned tree,
which all have short paths. So have its files. -/
theorem directory_of_applyAll_edits (hfs : fs.WellFormed) (hd : ∀ p ∈ m.destination, IsName p)
    (hplan : (planTree c m fs).result = .ok plan)
    (h : Edit.applyAll fs (plan.edits m.inPlace) = (files, none)) :
    (∀ k, files.node? k = some .directory ↔
      fs.node? k = some .directory ∨ m.IsEntered c.table fs k) ∧
      (∀ l ∈ m.directories fs, (m.directoryPlace c.table l).IsProper) ∧
        ∀ f ∈ m.files fs, (m.filePlace c.table f.1).IsProper := by
  rw [edits_of_planTree hd hplan, Edit.applyAll_append_eq_none_iff] at h
  obtain ⟨fs₂, h, hremove⟩ := h
  obtain ⟨fs₁, hmake, hcommit⟩ := Edit.applyAll_append_eq_none_iff.1 h
  have hpaths : (m.directories fs).map (fun l => Edit.makeDirectories (m.directoryPlace c.table l).path) =
      ((m.directories fs).map (m.directoryPlace c.table)).map fun l => .makeDirectories l.path := by
    rw [List.map_map]
    rfl
  rw [hpaths] at hmake
  obtain ⟨hmakeProper, hmade⟩ := Edit.applyAll_makeDirectories_path
    (List.forall_mem_map.2 fun l hl => isName_directoryPlace hfs hd hl) hmake
  obtain ⟨hcommitProper, hcommitted⟩ := directory_applyAll_commits
    (fun f hf => ⟨filePlace_ne_nil m c.table f.1, isName_filePlace hfs hd hf⟩) hcommit
  have hremoved := directory_applyAll_remove (fun l hl => by
    obtain ⟨f, hf, rfl⟩ := List.mem_map.1 hl
    obtain ⟨hcontent, hsource, hne, -⟩ := (mem_files_iff hfs).1 (List.mem_filter.1 hf).1
    refine ⟨?_, hfs.isName_of_file? hcontent⟩
    intro hnil
    rw [hnil] at hsource hne
    exact hne (List.prefix_nil.1 hsource).symm) hremove
  refine ⟨fun k => ?_, fun l hl => hmakeProper _ (List.mem_map_of_mem hl), fun f hf => ?_⟩
  · rw [hremoved, hcommitted, hmade]
    simp only [List.mem_map, exists_exists_and_eq_and]
    constructor
    · rintro (hk | ⟨f, hf, -, hk⟩)
      · split at hk
        next hentered => exact .inr (.inl hentered)
        next => exact .inl hk
      · exact .inr (.inr ⟨f, hf, hk⟩)
    · rintro (hk | hk | ⟨f, hf, hk, hkne⟩)
      · exact .inl (by rw [hk, ite_self])
      · exact .inl (if_pos hk)
      · by_cases hcontent : (plannedFile c m f).content = none
        · have hthere := ((mem_files_iff hfs).1 hf).1
          rw [filePlace_of_content_eq_none hfs hf hcontent] at hk hkne
          have hdirectory := hfs.isOpen (by simp [file?_eq_some_iff.1 hthere]) k hk hkne
          exact .inl (by rw [hdirectory, ite_self])
        · exact .inr ⟨f, hf, hcontent, hk, hkne⟩
  · by_cases hcontent : (plannedFile c m f).content = none
    · have hthere := ((mem_files_iff hfs).1 hf).1
      rw [filePlace_of_content_eq_none hfs hf hcontent]
      have hname := hfs.isName (l := f.1) (by simp [file?_eq_some_iff.1 hthere])
      exact ⟨⟨fun p hp => (hname p hp).2, (planTree_eq_ok hplan).2.2.2 f hf⟩,
        fun p hp => (hname p hp).1⟩
    · exact hcommitProper f hf hcontent

end

/-! ## Trees in new directories -/

/-- The file at `l` of the tree at `root` gets the name that the parts make up, and its content is the
converted one, or else the old one. -/
def Arrives (c : Conversion depth) (fs : FileSystem) (root l r : Location) (content : Bytes) : Prop :=
  ∃ old new, fs.file? l = some old ∧ root <+: l ∧ l ≠ root ∧
    Bytes.splitOn Byte.slash (fileName c.table root l) = r ∧
      (c.file l.path old).result = .ok new ∧ new.getD old = content

/-- The tree at `source` has been migrated to `destination`, where nothing was. -/
structure IsMigrated (c : Conversion depth) (fs files : FileSystem) (source destination : Location) :
    Prop where
  /-- Every file of the tree arrives. -/
  converted : ∀ l old, fs.file? l = some old → source <+: l → l ≠ source →
    ∃ r content, Arrives c fs source l r content
  /-- No two files arrive at one place. -/
  apart : ∀ l l' r content content', Arrives c fs source l r content →
    Arrives c fs source l' r content' → l = l'
  /-- The files of the destination are those that arrive. -/
  file : ∀ r content, files.file? (destination ++ r) = some content ↔
    ∃ l, Arrives c fs source l r content
  /-- The directories of the destination are those of the tree, under their new names, and all that
  are above these and above files. -/
  directory : ∀ r, files.node? (destination ++ r) = some .directory ↔ r = [] ∨
    (∃ l, fs.node? l = some .directory ∧ source <+: l ∧ l ≠ source ∧
      r <+: Bytes.splitOn Byte.slash (directoryName c.table source l)) ∨
    ∃ l place content, Arrives c fs source l place content ∧ r <+: place ∧ r ≠ place
  /-- The tree stays as it is. -/
  source : ∀ l, source <+: l → files.node? l = fs.node? l
  /-- Elsewhere nothing changes, except that the directories above the destination are made. -/
  elsewhere : ∀ l, ¬ destination <+: l → files.node? l = fs.node? l ∨
    l <+: destination ∧ fs.node? l = none ∧ files.node? l = some .directory

/-- The destination of a tree was made outside of it, where nothing was: `fs₁` is what became of `fs`. -/
structure IsFresh (m : Transfer) (fs fs₁ : FileSystem) : Prop where
  wellFormed : fs.WellFormed
  grown : Grown fs fs₁
  source : fs₁.node? m.source ≠ none
  absent : fs.node? m.destination = none
  there : fs₁.node? m.destination = some .directory
  outside : ¬ m.source <+: m.destination
  /-- Only what leads to the destination is new. -/
  above : ∀ k, fs.node? k = none → fs₁.node? k ≠ none → k <+: m.destination

theorem node?_source_of_transfer? {m : Transfer} {source destination : Bytes} {fs : FileSystem}
    (h : transfer? source destination fs = .ok m) : fs.node? m.source ≠ none := by
  have hreach := (Option.filter_eq_some_iff.1 (resolve?_of_transfer? h).1).1
  exact Option.isSome_iff_ne_none.1 (reach?_eq_some_iff.1 hreach).2.2

theorem Transfer.IsEntered.prefix_or {m : Transfer} {t : Table} {fs : FileSystem} {k : Location}
    (h : m.IsEntered t fs k) : k <+: m.destination ∨ m.destination <+: k := by
  rcases h with ⟨l, -, hk⟩ | ⟨f, -, hk, -⟩
  · exact List.prefix_or_prefix_of_prefix hk (List.prefix_append _ _)
  · exact List.prefix_or_prefix_of_prefix hk (List.prefix_append _ _)

namespace IsFresh

variable {m : Transfer} {fs fs₁ : FileSystem} (h : IsFresh m fs fs₁)
include h

theorem wellFormed' : fs₁.WellFormed := h.grown.wellFormed h.wellFormed

theorem node?_eq_none (r : Location) : fs.node? (m.destination ++ r) = none :=
  h.wellFormed.node?_eq_none_of_prefix (List.prefix_append _ _) h.absent

/-- The destination is empty. -/
theorem node?_append_iff {r : Location} :
    fs₁.node? (m.destination ++ r) = some .directory ↔ r = [] := by
  constructor
  · intro hr
    have hk := h.above _ (h.node?_eq_none r) (by simp [hr])
    have hlength := hk.length_le
    rw [List.length_append] at hlength
    exact List.eq_nil_of_length_eq_zero (by omega)
  · rintro rfl
    rw [List.append_nil, h.there]

theorem isClear : m.IsClear fs₁ := by
  refine .inr ?_
  rintro k ⟨r, rfl⟩ hne
  by_contra hn
  have hk := h.above _ (h.node?_eq_none r) hn
  exact hne (hk.eq_of_length (Nat.le_antisymm hk.length_le (List.prefix_append _ r).length_le))

/-- A directory that does not lead to the destination was there before. -/
theorem node?_iff {k : Location} (hk : ¬ k <+: m.destination) :
    fs₁.node? k = some .directory ↔ fs.node? k = some .directory := by
  rcases h.grown.node? k with he | ⟨hold, hk₁⟩
  · rw [he]
  · exact absurd (h.above k hold (by simp [hk₁])) hk

theorem node?_source : fs.node? m.source ≠ none := by
  intro hold
  exact h.outside (h.above _ hold h.source)

/-- Nothing lies both in the tree and in the destination. -/
theorem not_prefix {l : Location} (hl : m.source <+: l) : ¬ m.destination <+: l := by
  intro hl'
  rcases List.prefix_or_prefix_of_prefix hl hl' with hout | hin
  · exact h.outside hout
  · exact h.wellFormed.node?_ne_none_of_prefix hin h.node?_source h.absent

theorem not_prefix_destination {l : Location} (hl : m.source <+: l) : ¬ l <+: m.destination :=
  fun hl' => h.outside (hl.trans hl')

variable {c : Conversion depth} {plan : TreePlan} {files : FileSystem}
  (hplan : (planTree c m fs₁).result = .ok plan)

section
include hplan

/-- The files that arrive are those of the plan. -/
theorem arrives_iff {l r : Location} {content : Bytes} : Arrives c fs m.source l r content ↔
    ∃ old, (l, old) ∈ m.files fs₁ ∧ Bytes.splitOn Byte.slash (fileName c.table m.source l) = r ∧
      (newContent? c l old).getD old = content := by
  have hmem := @mem_files_iff_of_not_isNested m fs fs₁ l h.wellFormed h.grown
    (Transfer.isNested_of_outside h.outside)
  obtain ⟨-, -, -, -, hconverts⟩ := planTree_eq_ok_iff.1 hplan
  constructor
  · rintro ⟨old, new, hold, hl, hne, hr, hnew, hcontent⟩
    refine ⟨old, hmem.2 ⟨hold, hl, hne⟩, hr, ?_⟩
    rwa [newContent?, hnew]
  · rintro ⟨old, hold, hr, hcontent⟩
    obtain ⟨hfile, hl, hne⟩ := hmem.1 hold
    exact ⟨old, _, hfile, hl, hne, hr, (hconverts _ hold).result, hcontent⟩

/-- No two files arrive at one place. -/
theorem arrives_inj {l l' r : Location} {content content' : Bytes}
    (hl : Arrives c fs m.source l r content) (hl' : Arrives c fs m.source l' r content') : l = l' := by
  obtain ⟨old, hold, hr, -⟩ := (h.arrives_iff hplan).1 hl
  obtain ⟨old', hold', hr', -⟩ := (h.arrives_iff hplan).1 hl'
  obtain ⟨-, -, -, hdistinct, -⟩ := planTree_eq_ok_iff.1 hplan
  have hname : fileName c.table m.source l = fileName c.table m.source l' :=
    Bytes.eq_of_splitOn_eq (hr.trans hr'.symm)
  exact congrArg Prod.fst (List.inj_on_of_nodup_map hdistinct hold hold' hname)

end

variable (happly : Edit.applyAll fs₁ (plan.edits m.inPlace) = (files, none))
include hplan happly

theorem isMoved : IsMoved c m fs₁ files :=
  isMoved_of_applyAll_edits (h.wellFormed'.isName_of_node? h.there) hplan h.wellFormed' happly

theorem directory_iff (k : Location) : files.node? k = some .directory ↔
    fs₁.node? k = some .directory ∨ m.IsEntered c.table fs₁ k :=
  (directory_of_applyAll_edits h.wellFormed' (h.wellFormed'.isName_of_node? h.there) hplan happly).1 k

/-- The files of the destination are those that arrive. -/
theorem file?_append_iff {r : Location} {content : Bytes} :
    files.file? (m.destination ++ r) = some content ↔ ∃ l, Arrives c fs m.source l r content := by
  have hstays : m.destination ++ r ∉ m.leaving c.table fs₁ := by
    simp [Transfer.leaving, Transfer.inPlace_of_outside h.outside]
  simp only [h.arrives_iff hplan]
  constructor
  · intro hfile
    have hne : m.destination ++ r ≠ m.destination := by
      intro he
      rw [he, file?_eq_none_of_directory ((h.directory_iff hplan happly _).2 (.inl h.there))] at hfile
      cases hfile
    obtain ⟨⟨l, old⟩, hf, hplace, hcontent⟩ := (h.isMoved hplan happly).exists_of_file? h.wellFormed'
      h.isClear hfile (List.prefix_append _ _) hne
    exact ⟨l, old, hf, List.append_cancel_left hplace, hcontent⟩
  · rintro ⟨l, old, hold, rfl, rfl⟩
    exact (h.isMoved hplan happly).placed (l, old) hold hstays

/-- The directories of the destination are those of the tree, and what is above them and above files. -/
theorem directory_append_iff {r : Location} :
    files.node? (m.destination ++ r) = some .directory ↔ r = [] ∨
      (∃ l, fs.node? l = some .directory ∧ m.source <+: l ∧ l ≠ m.source ∧
        r <+: Bytes.splitOn Byte.slash (directoryName c.table m.source l)) ∨
      ∃ l place content, Arrives c fs m.source l place content ∧ r <+: place ∧ r ≠ place := by
  rw [h.directory_iff hplan happly, h.node?_append_iff]
  refine or_congr_right (or_congr ?_ ?_)
  · refine exists_congr fun l => ?_
    rw [mem_directories_iff h.wellFormed', Transfer.directoryPlace, Transfer.placeOf,
      List.prefix_append_right_inj, Transfer.isNested_of_outside h.outside]
    constructor
    · rintro ⟨⟨hl, hsource, hne, -⟩, hr⟩
      exact ⟨(h.node?_iff (h.not_prefix_destination hsource)).1 hl, hsource, hne, hr⟩
    · rintro ⟨hl, hsource, hne, hr⟩
      exact ⟨⟨(h.node?_iff (h.not_prefix_destination hsource)).2 hl, hsource, hne, by simp⟩, hr⟩
  · constructor
    · rintro ⟨⟨l, old⟩, hf, hr, hne⟩
      rw [Transfer.filePlace, Transfer.placeOf] at hr hne
      exact ⟨l, _, _, (h.arrives_iff hplan).2 ⟨old, hf, rfl, rfl⟩,
        (List.prefix_append_right_inj _).1 hr, fun he => hne (congrArg _ he)⟩
    · rintro ⟨l, place, content, harrives, hr, hne⟩
      obtain ⟨old, hf, rfl, -⟩ := (h.arrives_iff hplan).1 harrives
      exact ⟨(l, old), hf, (List.prefix_append_right_inj _).2 hr,
        fun he => hne (List.append_cancel_left he)⟩

/-- What lies apart from the destination stays. -/
theorem node?_eq_of_apart {k : Location} (hk : ¬ m.destination <+: k) (hk' : ¬ k <+: m.destination) :
    files.node? k = fs.node? k := by
  have hfile : files.file? k = fs.file? k := by
    rw [(h.isMoved hplan happly).kept k
      (by simp [Transfer.leaving, Transfer.inPlace_of_outside h.outside])
      fun f _ he => hk (he ▸ List.prefix_append _ _), h.grown.file?]
  refine node?_congr hfile ?_
  rw [h.directory_iff hplan happly, h.node?_iff hk', or_iff_left]
  exact fun he => he.prefix_or.elim hk' hk

/-- **The tree has been migrated.** -/
theorem isMigrated : IsMigrated c fs files m.source m.destination where
  converted l old hold hl hne := by
    have hmem := (mem_files_iff_of_not_isNested h.wellFormed h.grown
      (Transfer.isNested_of_outside h.outside)).2 ⟨hold, hl, hne⟩
    exact ⟨_, _, (h.arrives_iff hplan).2 ⟨old, hmem, rfl, rfl⟩⟩
  apart _ _ _ _ _ := h.arrives_inj hplan
  file _ _ := h.file?_append_iff hplan happly
  directory _ := h.directory_append_iff hplan happly
  source _ hl := h.node?_eq_of_apart hplan happly (h.not_prefix hl) (h.not_prefix_destination hl)
  elsewhere l hl := by
    by_cases hl' : l <+: m.destination
    · have hne : l ≠ m.destination := fun he => hl (he ▸ List.prefix_refl _)
      have habove := h.wellFormed'.isOpen (by simp [h.there]) l hl' hne
      have hthere := (h.directory_iff hplan happly l).2 (.inl habove)
      rcases h.grown.node? l with he | ⟨hold, -⟩
      · exact .inl (by rw [hthere, ← he, habove])
      · exact .inr ⟨hl', hold, hthere⟩
    · exact .inl (h.node?_eq_of_apart hplan happly hl hl')

end IsFresh

section
variable {c : Conversion depth} {source destination : Bytes} {fs : FileSystem}
  (hfs : fs.WellFormed) (habsent : fs.node? (fs.locationOf destination) = none)
  (houtside : ¬ fs.locationOf source <+: fs.locationOf destination)
include hfs habsent houtside

/-- **A run over a tree in which two files come to have the same name fails**, and nothing is left in the
destination. -/
theorem exists_error_of_repeated {l l' : Location} {content content' : Bytes}
    (hl : fs.file? l = some content ∧ fs.locationOf source <+: l ∧ l ≠ fs.locationOf source)
    (hl' : fs.file? l' = some content' ∧ fs.locationOf source <+: l' ∧ l' ≠ fs.locationOf source)
    (hne : l ≠ l')
    (hname : fileName c.table (fs.locationOf source) l = fileName c.table (fs.locationOf source) l') :
    (∃ e, (migrateDirectory c source destination fs).run.result = .error e) ∧
      ∀ r, (migrateDirectory c source destination fs).files.file? (fs.locationOf destination ++ r) =
        none := by
  have hgrown := grown_makeDirectories fs destination
  have hnothing : ∀ r, fs.file? (fs.locationOf destination ++ r) = none := by
    intro r
    rw [FileSystem.file?, hfs.node?_eq_none_of_prefix (List.prefix_append _ r) habsent]
  rcases migrateDirectory_cases c source destination fs with
    ⟨-, herror, hfiles⟩ | ⟨-, herror, hfiles⟩ | ⟨-, m, plan, htransfer, hplan, -⟩
  · rw [hfiles]
    exact ⟨⟨_, herror⟩, fun r => by rw [hgrown.file?, hnothing]⟩
  · refine ⟨herror, fun r => ?_⟩
    rw [hfiles]
    split
    · rw [hgrown.file?, hnothing]
    · rw [file?_removeDirectory, hgrown.file?, hnothing]
  · obtain ⟨hsource, hdestination, -⟩ := transfer?_eq_ok htransfer
    rw [locationOf_congr hgrown.here] at hsource hdestination
    rw [← hsource, ← hdestination] at houtside
    rw [← hsource] at hl hl' hname
    have hnested := Transfer.isNested_of_outside houtside
    have hmem := (mem_files_iff_of_not_isNested hfs hgrown hnested).2 hl
    have hmem' := (mem_files_iff_of_not_isNested hfs hgrown hnested).2 hl'
    have heq := List.inj_on_of_nodup_map (planTree_eq_ok hplan).2.2.1 hmem hmem' hname
    exact absurd (congrArg Prod.fst heq) hne

/-- A run that succeeds has migrated the tree. -/
theorem isMigrated_of_migrateDirectory (hreturns : fs.HasReturns destination) {converted : Bool}
    (h : (migrateDirectory c source destination fs).run.result = .ok converted) :
    IsMigrated c fs (migrateDirectory c source destination fs).files (fs.locationOf source)
      (fs.locationOf destination) := by
  obtain ⟨m, plan, htransfer, hplan, happly, hsource, hdestination, -, hnode⟩ :=
    exists_plan_of_migrateDirectory h
  have hfresh : IsFresh m fs (fs.makeDirectories destination).1 := {
    wellFormed := hfs
    grown := grown_makeDirectories fs destination
    source := node?_source_of_transfer? htransfer
    absent := hdestination ▸ habsent
    there := hnode
    outside := hsource ▸ hdestination ▸ houtside
    above := fun k hold hk => hdestination ▸ (prefix_of_makeDirectoriesWithin hfs hreturns hold hk).1 }
  have hmigrated := hfresh.isMigrated hplan happly
  rwa [hsource, hdestination] at hmigrated

end

/-- **A run into a directory that was not there migrates the whole tree or fails.** If it succeeds, the
destination holds every file of the tree, converted and under its new name, and nothing else but the
directories, and the tree stays as it is. If two files come to have the same name, it fails and no file
is in the destination. Names of files are texts (`Location`). -/
theorem migrateDirectory_complete {c : Conversion depth} {source destination : Bytes} {fs : FileSystem}
    (hfs : fs.WellFormed) (hreturns : fs.HasReturns destination)
    (habsent : fs.node? (fs.locationOf destination) = none)
    (houtside : ¬ fs.locationOf source <+: fs.locationOf destination) :
    let o := migrateDirectory c source destination fs
    let root := fs.locationOf source
    (∀ converted, o.run.result = .ok converted →
      IsMigrated c fs o.files root (fs.locationOf destination)) ∧
    ((∃ l l', l ≠ l' ∧ (fs.file? l).isSome ∧ root <+: l ∧ l ≠ root ∧ (fs.file? l').isSome ∧ root <+: l' ∧
        l' ≠ root ∧ fileName c.table root l = fileName c.table root l') →
      (∃ e, o.run.result = .error e) ∧ ∀ r, o.files.file? (fs.locationOf destination ++ r) = none) := by
  refine ⟨fun converted h => isMigrated_of_migrateDirectory hfs habsent houtside hreturns h, ?_⟩
  rintro ⟨l, l', hne, hfile, hl, hlne, hfile', hl', hlne', hname⟩
  obtain ⟨content, hcontent⟩ := Option.isSome_iff_exists.1 hfile
  obtain ⟨content', hcontent'⟩ := Option.isSome_iff_exists.1 hfile'
  exact exists_error_of_repeated hfs habsent houtside ⟨hcontent, hl, hlne⟩ ⟨hcontent', hl', hlne'⟩ hne
    hname

/-- A tree with a file whose name and content move. -/
def packageTree : FileSystem where
  nodes := [([bytes "s"], .directory), ([bytes "s", bytes "javax"], .directory),
    ([bytes "s", bytes "javax", bytes "el"], .directory),
    ([bytes "s", bytes "javax", bytes "el", bytes "A.txt"], .file (bytes "javax.el.B"))]
  here := []

/-- A tree with two files that come to have the same name. -/
def repeatedTree : FileSystem where
  nodes := packageTree.nodes ++ [([bytes "s", bytes "jakarta"], .directory),
    ([bytes "s", bytes "jakarta", bytes "el"], .directory),
    ([bytes "s", bytes "jakarta", bytes "el", bytes "A.txt"], .file (bytes "new"))]
  here := []

theorem hasReturns_of_notMem {fs : FileSystem} {path : Bytes} (h : Path.above ∉ Path.names path) :
    fs.HasReturns path := by
  intro front rest hnames
  exact absurd (by simp [hnames]) h

theorem migrateDirectory_packageTree :
    (migrateDirectory (⟨Container.zip, Profile.tomcat.table, .inMemory⟩ : Conversion) (bytes "s")
      (bytes "d") packageTree).run.result = .ok true := by
  have hmade : packageTree.makeDirectories (bytes "d") =
      (packageTree.set [bytes "d"] .directory, true) := by
    decide +kernel
  have htransfer : transfer? (bytes "s") (bytes "d") (packageTree.set [bytes "d"] .directory) =
      .ok ⟨bytes "s", [bytes "s"], [bytes "d"]⟩ := by
    decide +kernel
  have hplan : (planTree (⟨Container.zip, Profile.tomcat.table, .inMemory⟩ : Conversion)
      ⟨bytes "s", [bytes "s"], [bytes "d"]⟩ (packageTree.set [bytes "d"] .directory)).result =
      .ok ⟨[bytes "/d/javax", bytes "/d/jakarta/el"],
        [⟨bytes "/s/javax/el/A.txt", bytes "/d/jakarta/el/A.txt", true, some (bytes "jakarta.el.B")⟩],
        true⟩ := by
    unfold planTree Transfer.nodes
    rw [below_of_pairwise (by decide +kernel), Profile.table_eq_orderedTable]
    decide +kernel
  obtain ⟨hresult, -⟩ := migrateDirectory_of_plan hmade htransfer hplan
  rw [hresult]
  decide +kernel

theorem migrateDirectory_complete_packageTree :
    let c : Conversion := ⟨Container.zip, Profile.tomcat.table, .inMemory⟩
    let migrated := migrateDirectory c (bytes "s") (bytes "d") packageTree
    let repeated := migrateDirectory c (bytes "s") (bytes "d") repeatedTree
    (packageTree.WellFormed ∧ packageTree.HasReturns (bytes "d") ∧
      packageTree.node? (packageTree.locationOf (bytes "d")) = none ∧
      ¬ packageTree.locationOf (bytes "s") <+: packageTree.locationOf (bytes "d") ∧
      migrated.run.result = .ok true ∧ IsMigrated c packageTree migrated.files [bytes "s"] [bytes "d"]) ∧
    repeatedTree.WellFormed ∧ (∃ e, repeated.run.result = .error e) ∧
      ∀ r, repeated.files.file? ([bytes "d"] ++ r) = none := by
  intro c migrated repeated
  have hreturns : ∀ {fs : FileSystem}, fs.HasReturns (bytes "d") :=
    hasReturns_of_notMem (by decide +kernel)
  have hfs : packageTree.WellFormed := by decide +kernel
  have habsent : packageTree.node? (packageTree.locationOf (bytes "d")) = none := by decide +kernel
  have houtside : ¬ packageTree.locationOf (bytes "s") <+: packageTree.locationOf (bytes "d") := by
    decide +kernel
  have hfs' : repeatedTree.WellFormed := by decide +kernel
  refine ⟨⟨hfs, hreturns, habsent, houtside, migrateDirectory_packageTree, ?_⟩, hfs', ?_⟩
  · exact (migrateDirectory_complete hfs hreturns habsent houtside).1 true migrateDirectory_packageTree
  · refine (migrateDirectory_complete hfs' hreturns (by decide +kernel) (by decide +kernel)).2
      ⟨[bytes "s", bytes "javax", bytes "el", bytes "A.txt"],
        [bytes "s", bytes "jakarta", bytes "el", bytes "A.txt"], by decide +kernel, by decide +kernel,
        by decide +kernel, by decide +kernel, by decide +kernel, by decide +kernel, by decide +kernel, ?_⟩
    show fileName Profile.tomcat.table _ _ = fileName Profile.tomcat.table _ _
    rw [Profile.table_eq_orderedTable]
    decide +kernel

/-- A tree with one file. -/
def plainTree : FileSystem where
  nodes := [([bytes "s"], .directory), ([bytes "s", bytes "b.txt"], .file (bytes "1"))]
  here := []

/-- The way to a destination outside of the tree can lead through directories of the tree, which are made
and then migrated with it. -/
theorem migrateDirectory_not_complete :
    let destination := bytes "s/a/../../d"
    let c : Conversion := ⟨Container.zip, Profile.tomcat.table, .inMemory⟩
    let o := migrateDirectory c (bytes "s") destination plainTree
    plainTree.WellFormed ∧ plainTree.locationOf destination = [bytes "d"] ∧
      plainTree.node? [bytes "d"] = none ∧ o.run.result = .ok false ∧
      plainTree.node? [bytes "s", bytes "a"] = none ∧
      o.files.node? [bytes "s", bytes "a"] = some .directory ∧
      o.files.node? [bytes "d", bytes "a"] = some .directory := by
  intro destination o
  have hmade : plainTree.makeDirectories destination =
      ((plainTree.set [bytes "s", bytes "a"] .directory).set [bytes "d"] .directory, true) := by
    decide +kernel
  have htransfer : transfer? (bytes "s") destination
      ((plainTree.set [bytes "s", bytes "a"] .directory).set [bytes "d"] .directory) =
        .ok ⟨bytes "s", [bytes "s"], [bytes "d"]⟩ := by
    decide +kernel
  have hplan : (planTree (⟨Container.zip, Profile.tomcat.table, .inMemory⟩ : Conversion)
      ⟨bytes "s", [bytes "s"], [bytes "d"]⟩
      ((plainTree.set [bytes "s", bytes "a"] .directory).set [bytes "d"] .directory)).result =
      .ok ⟨[bytes "/d/a"], [⟨bytes "/s/b.txt", bytes "/d/b.txt", false, some (bytes "1")⟩], false⟩ := by
    unfold planTree Transfer.nodes
    rw [below_of_pairwise (by decide +kernel), Profile.table_eq_orderedTable]
    decide +kernel
  obtain ⟨hresult, hfiles⟩ := migrateDirectory_of_plan hmade htransfer hplan
  refine ⟨by decide +kernel, by decide +kernel, by decide +kernel, ?_, by decide +kernel, ?_⟩
  · show (migrateDirectory _ _ _ _).run.result = _
    rw [hresult]
    decide +kernel
  · show (migrateDirectory _ _ _ _).files.node? _ = _ ∧ (migrateDirectory _ _ _ _).files.node? _ = _
    rw [hfiles]
    decide +kernel

end PackageMigration.Migration
