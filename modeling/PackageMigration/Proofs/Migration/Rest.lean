import PackageMigration.Proofs.Migration.Tree
/-
  Trees that a run in place leaves as they are.

  * `IsAtRest`: every file of a tree keeps its name and content, and what its directories would be
    called is there.

  Main statements: `IsAtRest.migrateDirectory` (nothing changes, and what the answer is).
-/
namespace PackageMigration.Migration

open FileSystem
open PackageMigration.Path (IsName)

variable {depth : Nat}

/-- There is nothing left to do for the tree at a location. -/
structure IsAtRest (c : Conversion depth) (fs : FileSystem) (root : Location) : Prop where
  room : Path.hasRoom root.path stagingAreaNameLength
  /-- Every file can be read, and keeps its name and content. -/
  file : ∀ l content, fs.file? l = some content → root <+: l → l ≠ root →
    Path.isUsable l.path ∧ renames c.table root l = false ∧ (c.file l.path content).result = .ok none
  /-- Every directory can be listed, and is there under its new name too. -/
  directory : ∀ l, fs.node? l = some .directory → root <+: l → l ≠ root → Path.isUsable l.path ∧
    fs.isDirectory (Location.path (root ++ Bytes.splitOn Byte.slash (directoryName c.table root l)))

section
variable {c : Conversion depth} {m : Transfer} {fs : FileSystem}

theorem unlisted?_eq_none_iff {nodes : List (Location × Node)} :
    unlisted? nodes = none ↔ ∀ l ∈ directoriesOf nodes, Path.isUsable l.path := by
  rw [unlisted?, Option.map_eq_none_iff, List.find?_eq_none]
  constructor
  · intro h l hl
    simpa using h _ (mem_directoriesOf.1 hl)
  · rintro h ⟨l, n⟩ hn
    cases n with
    | file content => simp
    | directory => simpa using h l (mem_directoriesOf.2 hn)

theorem perform_of_applyAll {α : Type} {edits : List Edit} {answer : α} {files : FileSystem}
    (h : Edit.applyAll fs edits = (files, none)) : perform edits answer fs = ⟨pure answer, files⟩ := by
  rw [perform, h]

namespace IsAtRest

variable (h : IsAtRest c fs m.source) (hfs : fs.WellFormed) (hin : m.inPlace)
include h hfs hin

theorem file_of_mem {f : Location × Bytes} (hf : f ∈ m.files fs) :
    Path.isUsable f.1.path ∧ renames c.table m.source f.1 = false ∧
      (c.file f.1.path f.2).result = .ok none ∧ m.filePlace c.table f.1 = f.1 := by
  obtain ⟨hfile, hsource, hne, -⟩ := (mem_files_iff hfs).1 hf
  obtain ⟨husable, hname, hcontent⟩ := h.file f.1 f.2 hfile hsource hne
  exact ⟨husable, hname, hcontent,
    filePlace_eq_self hin hsource hne (hfs.isName_of_file? hfile) hname⟩

/-- Nothing is staged for a file of the tree. -/
theorem content_plannedFile {f : Location × Bytes} (hf : f ∈ m.files fs) :
    (plannedFile c m f).content = none := by
  obtain ⟨-, hname, hcontent, -⟩ := h.file_of_mem hfs hin hf
  exact content_plannedFile_eq_none_iff.2 ⟨by rw [newContent?, hcontent], hin, hname⟩

/-- There is a plan for the tree. -/
theorem planTree : (planTree c m fs).result = .ok (plannedTree c m (m.nodes fs)) := by
  have hsame : m.source = m.destination := eq_of_beq hin
  refine planTree_eq_ok_iff.2
    ⟨rfl, unlisted?_eq_none_iff.2 fun l hl => ?_, (hsame ▸ h.room :), ?_, fun f hf => ?_⟩
  · obtain ⟨hnode, hsource, hne, -⟩ := (mem_directories_iff hfs).1 hl
    exact (h.directory l hnode hsource hne).1
  · refine (nodup_files hfs).of_map.map_on fun f hf f' hf' he => ?_
    have hplace : f.1 = f'.1 := by
      rw [← (h.file_of_mem hfs hin hf).2.2.2, ← (h.file_of_mem hfs hin hf').2.2.2]
      exact congrArg m.placeOf he
    exact List.inj_on_of_nodup_map (nodup_files hfs) hf hf' hplace
  · obtain ⟨husable, -, hcontent, -⟩ := h.file_of_mem hfs hin hf
    refine ⟨husable, by rw [newContent?, hcontent], fun hstaged => ?_⟩
    rw [h.content_plannedFile hfs hin hf] at hstaged
    cases hstaged

/-- The plan changes nothing. -/
theorem applyAll_edits (hd : ∀ p ∈ m.destination, IsName p) :
    Edit.applyAll fs ((plannedTree c m (m.nodes fs)).edits m.inPlace) = (fs, none) := by
  have hcommits : ((m.files fs).flatMap fun f =>
      ((plannedFile c m f).content.map (commit (m.filePlace c.table f.1).path)).getD []) = [] := by
    rw [List.flatMap_eq_nil_iff]
    intro f hf
    rw [h.content_plannedFile hfs hin hf]
    rfl
  have hleaving : m.leaving c.table fs = [] := by
    rw [Transfer.leaving, List.map_eq_nil_iff, List.filter_eq_nil_iff]
    intro f hf
    simp [(h.file_of_mem hfs hin hf).2.1]
  have hthere : ∀ path ∈ (m.directories fs).map fun l => (m.directoryPlace c.table l).path,
      fs.isDirectory path := by
    intro path hpath
    obtain ⟨l, hl, rfl⟩ := List.mem_map.1 hpath
    obtain ⟨hnode, hsource, hne, -⟩ := (mem_directories_iff hfs).1 hl
    rw [Transfer.directoryPlace, Transfer.placeOf, ← eq_of_beq hin]
    exact (h.directory l hnode hsource hne).2
  have hdirectories := Edit.applyAll_makeDirectories_of_isDirectory hthere
  rw [List.map_map] at hdirectories
  rw [edits_of_planTree hd (h.planTree hfs hin), hcommits, hleaving, List.append_nil, List.map_nil,
    List.append_nil]
  exact hdirectories

/-- The plan is one that changes something if a directory would be called otherwise. -/
theorem converted_iff : (plannedTree c m (m.nodes fs)).converted ↔
    ∃ l, fs.node? l = some .directory ∧ m.source <+: l ∧ l ≠ m.source ∧
      (renameDirectory? c.table (relativeName m.source l)).isSome := by
  rw [plannedTree, List.any_eq_true]
  constructor
  · rintro ⟨⟨l, content | _⟩, hn, hconverted⟩
    · obtain ⟨-, hname, hcontent, -⟩ := h.file_of_mem hfs hin (mem_filesOf.2 hn)
      simp [newContent?, hcontent, hname] at hconverted
    · obtain ⟨hnode, hsource, hne, -⟩ := (mem_nodes_iff hfs).1 hn
      exact ⟨l, hnode, hsource, hne, hconverted⟩
  · rintro ⟨l, hnode, hsource, hne, hrenamed⟩
    refine ⟨(l, .directory), (mem_nodes_iff hfs).2 ⟨hnode, hsource, hne, ?_⟩, hrenamed⟩
    simp [Transfer.isNested, hin]

end IsAtRest

/-- **A run in place over a tree at rest succeeds and changes nothing.** It answers that something
changed exactly if a directory would be called otherwise. -/
theorem IsAtRest.migrateDirectory {root : Location} {path : Bytes} (h : IsAtRest c fs root)
    (hfs : fs.WellFormed) (hthere : fs.isDirectory path) (hroot : fs.resolve? path = some root) :
    ∃ converted, (migrateDirectory c path path fs).run.result = .ok converted ∧
      (converted ↔ ∃ l, fs.node? l = some .directory ∧ root <+: l ∧ l ≠ root ∧
        (renameDirectory? c.table (relativeName root l)).isSome) ∧
      (migrateDirectory c path path fs).files = fs := by
  have hin : Transfer.inPlace ⟨path, root, root⟩ := by simp [Transfer.inPlace]
  have hnode : fs.node? root = some .directory := by
    rw [(resolve?_eq_some hroot).2]
    exact node?_of_isDirectory hthere
  obtain ⟨hresult, hfiles⟩ := migrateDirectory_of_plan (makeDirectories_of_isDirectory hthere)
    (show transfer? path path fs = .ok ⟨path, root, root⟩ by rw [transfer?, hroot]) (h.planTree hfs hin)
  have hperform := h.applyAll_edits hfs hin (hfs.isName_of_node? hnode)
  rw [hresult, hfiles, perform_of_applyAll hperform]
  exact ⟨_, rfl, h.converted_iff hfs hin, rfl⟩

end

end PackageMigration.Migration
