import PackageMigration.Container.Zip
import PackageMigration.Proofs.Migration.Tree
/-
  A tree that is migrated in place, compared with one that is migrated into a fresh directory.

  Main statements: `file?_migrateDirectory_inPlace` (both have the same files, except that in place
  nothing stands where a renamed file stood before).
-/
namespace PackageMigration.Migration

open FileSystem
open PackageMigration.Path (IsName)

variable {depth : Nat}

section
variable {c : Conversion depth} {t : Table} {m : Transfer} {fs fs₁ files : FileSystem} {l r : Location}

/-- The files of a tree whose destination is outside or the tree itself. -/
theorem mem_files_iff_of_not_isNested (hfs : fs.WellFormed) (hgrown : Grown fs fs₁)
    (hnested : m.isNested = false) {content : Bytes} :
    (l, content) ∈ m.files fs₁ ↔ fs.file? l = some content ∧ m.source <+: l ∧ l ≠ m.source := by
  rw [mem_files_iff (hgrown.wellFormed hfs), hgrown.file?]
  simp [hnested]

/-- The files that go in place: the renamed ones. -/
theorem mem_leaving_iff (hfs : fs.WellFormed) (hgrown : Grown fs fs₁) (hin : m.inPlace)
    (hroot : fs.file? m.source = none) :
    m.source ++ r ∈ m.leaving t fs₁ ↔ (fs.file? (m.source ++ r)).isSome ∧
      (t.renameEntry? ([Byte.slash].intercalate r)).isSome := by
  have hnested : m.isNested = false := by simp [Transfer.isNested, hin]
  unfold Transfer.leaving
  simp only [List.mem_map, List.mem_filter, Prod.exists, exists_and_right, exists_eq_right, hin,
    Bool.true_and, renames]
  rw [relativeName_append]
  refine and_congr_left fun _ => ?_
  simp only [mem_files_iff_of_not_isNested hfs hgrown hnested, List.prefix_append, true_and,
    exists_and_right, ← Option.isSome_iff_exists]
  refine ⟨fun h => h.1, fun h => ⟨h, fun hr => ?_⟩⟩
  rw [hr, hroot] at h
  cases h

/-- A file of the tree at `root` gets the name that the parts make up, and the content. -/
def Becomes (c : Conversion depth) (fs : FileSystem) (root r : Location) (new : Bytes) : Prop :=
  ∃ l content, fs.file? l = some content ∧ root <+: l ∧ l ≠ root ∧
    Bytes.splitOn Byte.slash (fileName c.table root l) = r ∧
      (newContent? c l content).getD content = new

/-- What stands below the destination, where no file goes and nothing stood that was no file of the
tree. -/
theorem IsMoved.file?_eq_some_iff (h : IsMoved c m fs₁ files) (hfs : fs.WellFormed)
    (hgrown : Grown fs fs₁) (hnested : m.isNested = false)
    (hkept : m.destination ++ r ∉ m.leaving c.table fs₁)
    (hfree : (∀ new, ¬ Becomes c fs m.source r new) → fs.file? (m.destination ++ r) = none)
    {new : Bytes} : files.file? (m.destination ++ r) = some new ↔ Becomes c fs m.source r new := by
  have hplaced : ∀ {new}, Becomes c fs m.source r new →
      files.file? (m.destination ++ r) = some new := by
    rintro new ⟨l, content, hcontent, hl, hne, rfl, rfl⟩
    exact h.placed (l, content)
      ((mem_files_iff_of_not_isNested hfs hgrown hnested).2 ⟨hcontent, hl, hne⟩) hkept
  refine ⟨fun hfile => ?_, hplaced⟩
  by_cases hsome : ∃ new', Becomes c fs m.source r new'
  · obtain ⟨new', hnew'⟩ := hsome
    obtain rfl := Option.some.inj (hfile.symm.trans (hplaced hnew'))
    exact hnew'
  · rw [not_exists] at hsome
    rw [h.kept _ hkept, hgrown.file?, hfree hsome] at hfile
    · cases hfile
    · rintro ⟨l, content⟩ hf hplace
      obtain ⟨hcontent, hl, hne⟩ := (mem_files_iff_of_not_isNested hfs hgrown hnested).1 hf
      exact hsome _ ⟨l, content, hcontent, hl, hne, List.append_cancel_left hplace, rfl⟩

end

/-! ## Runs -/

section
variable {c : Conversion depth} {source fresh : Bytes} {fs : FileSystem} {converted : Bool}
  {r : Location}
  (hfs : fs.WellFormed)
include hfs

/-- The files of a tree that was migrated into a fresh directory. -/
theorem file?_eq_some_iff_of_fresh
    (h : (migrateDirectory c source fresh fs).run.result = .ok converted)
    (hfresh : fs.node? (fs.locationOf fresh) = none)
    (houtside : ¬ fs.locationOf source <+: fs.locationOf fresh) {new : Bytes} :
    (migrateDirectory c source fresh fs).files.file? (fs.locationOf fresh ++ r) = some new ↔
      Becomes c fs (fs.locationOf source) r new := by
  obtain ⟨m, fs₁, hgrown, hsource, hdestination, -, hmoved⟩ := isMoved_of_migrateDirectory hfs h
  rw [← hsource, ← hdestination] at houtside
  rw [← hdestination] at hfresh
  have hplace := Transfer.inPlace_of_outside houtside
  have hnested := Transfer.isNested_of_outside houtside
  rw [← hsource, ← hdestination]
  refine hmoved.file?_eq_some_iff hfs hgrown hnested (by simp [Transfer.leaving, hplace]) fun _ => ?_
  rw [FileSystem.file?, hfs.node?_eq_none_of_prefix (List.prefix_append _ r) hfresh]

/-- A run in place moves the files of a directory to itself. -/
theorem isMoved_of_inPlace (h : (migrateDirectory c source source fs).run.result = .ok converted) :
    ∃ (m : Transfer) (fs₁ : FileSystem), Grown fs fs₁ ∧ m.source = fs.locationOf source ∧
      m.destination = m.source ∧ m.inPlace ∧ fs.file? m.source = none ∧
      IsMoved c m fs₁ (migrateDirectory c source source fs).files := by
  obtain ⟨m, fs₁, hgrown, hsource, hdestination, hnode, hmoved⟩ := isMoved_of_migrateDirectory hfs h
  have hsame : m.destination = m.source := by rw [hsource, hdestination]
  refine ⟨m, fs₁, hgrown, hsource, hsame, by simp [Transfer.inPlace, hsame], ?_, hmoved⟩
  rw [← hgrown.file?, ← hsame]
  exact file?_eq_none_of_directory hnode

/-- Nothing stands where a renamed file stood before it was migrated in place. -/
theorem file?_eq_none_of_inPlace
    (h : (migrateDirectory c source source fs).run.result = .ok converted)
    (hgone : (fs.file? (fs.locationOf source ++ r)).isSome ∧
      (c.table.renameEntry? ([Byte.slash].intercalate r)).isSome) :
    (migrateDirectory c source source fs).files.file? (fs.locationOf source ++ r) = none := by
  obtain ⟨m, fs₁, hgrown, hsource, -, hplace, hroot, hmoved⟩ := isMoved_of_inPlace hfs h
  rw [← hsource] at hgone ⊢
  exact hmoved.gone _ ((mem_leaving_iff hfs hgrown hplace hroot).2 hgone)

/-- The files of a tree that was migrated in place, but for the places of renamed files. -/
theorem file?_eq_some_iff_of_inPlace
    (h : (migrateDirectory c source source fs).run.result = .ok converted)
    (hstays : ¬ ((fs.file? (fs.locationOf source ++ r)).isSome ∧
      (c.table.renameEntry? ([Byte.slash].intercalate r)).isSome)) {new : Bytes} :
    (migrateDirectory c source source fs).files.file? (fs.locationOf source ++ r) = some new ↔
      Becomes c fs (fs.locationOf source) r new := by
  obtain ⟨m, fs₁, hgrown, hsource, hsame, hplace, hroot, hmoved⟩ := isMoved_of_inPlace hfs h
  have hnested : m.isNested = false := by simp [Transfer.isNested, hplace]
  rw [← hsource] at hstays ⊢
  have hkept := mt (mem_leaving_iff hfs hgrown hplace hroot).1 hstays
  rw [← hsame] at hkept
  conv_lhs => rw [← hsame]
  refine hmoved.file?_eq_some_iff hfs hgrown hnested hkept fun hnone => ?_
  rw [hsame]
  by_contra hfile
  obtain ⟨content, hcontent⟩ := Option.ne_none_iff_exists'.1 hfile
  have hname := hfs.isName_of_file? hcontent
  have hne : m.source ++ r ≠ m.source := by
    intro hr
    rw [hr, hroot] at hcontent
    cases hcontent
  -- the file keeps its name
  have hrelative := relativeName_append m.source r
  have hrename : c.table.renameEntry? ([Byte.slash].intercalate r) = none := by
    rw [hcontent] at hstays
    simpa using hstays
  refine hnone _ ⟨_, content, hcontent, List.prefix_append _ _, hne, ?_, rfl⟩
  rw [fileName, hrelative, hrename, Option.getD_none, ← hrelative,
    splitOn_relativeName (List.prefix_append _ _) hne hname, List.drop_left]

end

/-- **In place and in a fresh directory the same files come to be**, except that in place nothing
stands afterwards where a renamed file stood before, whatever came to that place. Names of files are
texts (`Location`). -/
theorem file?_migrateDirectory_inPlace {c : Conversion depth} {source fresh : Bytes} {fs : FileSystem}
    {converted converted' : Bool} (hfs : fs.WellFormed)
    (hin : (migrateDirectory c source source fs).run.result = .ok converted)
    (hout : (migrateDirectory c source fresh fs).run.result = .ok converted')
    (hfresh : fs.node? (fs.locationOf fresh) = none)
    (houtside : ¬ fs.locationOf source <+: fs.locationOf fresh) (r : Location) :
    (migrateDirectory c source source fs).files.file? (fs.locationOf source ++ r) =
      if (fs.file? (fs.locationOf source ++ r)).isSome ∧
          (c.table.renameEntry? ([Byte.slash].intercalate r)).isSome then none
      else (migrateDirectory c source fresh fs).files.file? (fs.locationOf fresh ++ r) := by
  by_cases hgone : (fs.file? (fs.locationOf source ++ r)).isSome ∧
      (c.table.renameEntry? ([Byte.slash].intercalate r)).isSome
  · rw [if_pos hgone]
    exact file?_eq_none_of_inPlace hfs hin hgone
  · rw [if_neg hgone]
    ext new
    rw [file?_eq_some_iff_of_inPlace hfs hin hgone, file?_eq_some_iff_of_fresh hfs hout hfresh houtside]

/-- A table in which the target of a rule is the source of another one. -/
def chainTable : Table where
  rules := [⟨bytes "a", bytes "b"⟩, ⟨bytes "b", bytes "c"⟩]
  roots := [bytes "a", bytes "b"]
  depth := 1
  nonempty := by decide
  qualified := by decide +kernel
  distinct := by decide
  roots_eq := by decide
  depth_eq := by decide

/-- A tree in which a file gets the name that another one had. -/
def chainTree : FileSystem where
  nodes := [([bytes "t"], .directory), ([bytes "t", bytes "a"], .directory),
    ([bytes "t", bytes "a", bytes "x.txt"], .file (bytes "1")),
    ([bytes "t", bytes "b"], .directory),
    ([bytes "t", bytes "b", bytes "x.txt"], .file (bytes "2"))]
  here := []

theorem migrateDirectory_chainTree_inPlace :
    let c : Conversion := ⟨Container.zip, chainTable, .inMemory⟩
    let o := migrateDirectory c (bytes "t") (bytes "t") chainTree
    o.run.result = .ok true ∧ o.files.file? [bytes "t", bytes "b", bytes "x.txt"] = none := by
  have hmade : chainTree.makeDirectories (bytes "t") = (chainTree, true) := by decide +kernel
  have htransfer : transfer? (bytes "t") (bytes "t") chainTree =
      .ok ⟨bytes "t", [bytes "t"], [bytes "t"]⟩ := by
    decide +kernel
  have hplan : (planTree (⟨Container.zip, chainTable, .inMemory⟩ : Conversion)
      ⟨bytes "t", [bytes "t"], [bytes "t"]⟩ chainTree).result =
      .ok ⟨[bytes "/t/b", bytes "/t/c"],
        [⟨bytes "/t/a/x.txt", bytes "/t/b/x.txt", true, some (bytes "1")⟩,
          ⟨bytes "/t/b/x.txt", bytes "/t/c/x.txt", true, some (bytes "2")⟩], true⟩ := by
    unfold planTree Transfer.nodes
    rw [below_of_pairwise (by decide +kernel)]
    decide +kernel
  obtain ⟨hresult, hfiles⟩ := migrateDirectory_of_plan hmade htransfer hplan
  intro c o
  rw [hresult, hfiles]
  decide +kernel

theorem migrateDirectory_chainTree_fresh :
    let c : Conversion := ⟨Container.zip, chainTable, .inMemory⟩
    let o := migrateDirectory c (bytes "t") (bytes "u") chainTree
    o.run.result = .ok true ∧
      o.files.file? [bytes "u", bytes "b", bytes "x.txt"] = some (bytes "1") := by
  have hmade : chainTree.makeDirectories (bytes "u") =
      (chainTree.set [bytes "u"] .directory, true) := by
    decide +kernel
  have htransfer : transfer? (bytes "t") (bytes "u") (chainTree.set [bytes "u"] .directory) =
      .ok ⟨bytes "t", [bytes "t"], [bytes "u"]⟩ := by
    decide +kernel
  have hplan : (planTree (⟨Container.zip, chainTable, .inMemory⟩ : Conversion)
      ⟨bytes "t", [bytes "t"], [bytes "u"]⟩ (chainTree.set [bytes "u"] .directory)).result =
      .ok ⟨[bytes "/u/b", bytes "/u/c"],
        [⟨bytes "/t/a/x.txt", bytes "/u/b/x.txt", true, some (bytes "1")⟩,
          ⟨bytes "/t/b/x.txt", bytes "/u/c/x.txt", true, some (bytes "2")⟩], true⟩ := by
    unfold planTree Transfer.nodes
    rw [below_of_pairwise (by decide +kernel)]
    decide +kernel
  obtain ⟨hresult, hfiles⟩ := migrateDirectory_of_plan hmade htransfer hplan
  intro c o
  rw [hresult, hfiles]
  decide +kernel

theorem file?_migrateDirectory_inPlace_chainTree :
    let c : Conversion := ⟨Container.zip, chainTable, .inMemory⟩
    let inPlace := migrateDirectory c (bytes "t") (bytes "t") chainTree
    let fresh := migrateDirectory c (bytes "t") (bytes "u") chainTree
    chainTree.WellFormed ∧ inPlace.run.result = .ok true ∧ fresh.run.result = .ok true ∧
      chainTree.node? (chainTree.locationOf (bytes "u")) = none ∧
      ¬ chainTree.locationOf (bytes "t") <+: chainTree.locationOf (bytes "u") ∧
      inPlace.files.file? [bytes "t", bytes "c", bytes "x.txt"] =
        fresh.files.file? [bytes "u", bytes "c", bytes "x.txt"] := by
  intro c inPlace fresh
  have hfs : chainTree.WellFormed := by decide +kernel
  have hin : inPlace.run.result = .ok true := migrateDirectory_chainTree_inPlace.1
  have hout : fresh.run.result = .ok true := migrateDirectory_chainTree_fresh.1
  have hfresh : chainTree.node? (chainTree.locationOf (bytes "u")) = none := by decide +kernel
  have houtside : ¬ chainTree.locationOf (bytes "t") <+: chainTree.locationOf (bytes "u") := by
    decide +kernel
  refine ⟨hfs, hin, hout, hfresh, houtside, ?_⟩
  have hsame := file?_migrateDirectory_inPlace hfs hin hout hfresh houtside
    [bytes "c", bytes "x.txt"]
  rwa [if_neg (by decide +kernel)] at hsame

/-- In place a converted file is lost that comes to the place of a renamed one. -/
theorem migrateDirectory_inPlace_loses_file :
    let c : Conversion := ⟨Container.zip, chainTable, .inMemory⟩
    let inPlace := migrateDirectory c (bytes "t") (bytes "t") chainTree
    let fresh := migrateDirectory c (bytes "t") (bytes "u") chainTree
    inPlace.run.result = .ok true ∧ fresh.run.result = .ok true ∧
      chainTree.node? (chainTree.locationOf (bytes "u")) = none ∧
      ¬ chainTree.locationOf (bytes "t") <+: chainTree.locationOf (bytes "u") ∧
      inPlace.files.file? [bytes "t", bytes "b", bytes "x.txt"] = none ∧
      fresh.files.file? [bytes "u", bytes "b", bytes "x.txt"] = some (bytes "1") := by
  intro c inPlace fresh
  obtain ⟨hin, hlost⟩ := migrateDirectory_chainTree_inPlace
  obtain ⟨hout, hkept⟩ := migrateDirectory_chainTree_fresh
  exact ⟨hin, hout, by decide +kernel, by decide +kernel, hlost, hkept⟩

end PackageMigration.Migration
