import PackageMigration.Proofs.FileSystem.Directories
import PackageMigration.Proofs.FileSystem.Edit
import PackageMigration.Proofs.Migration.Rename
import PackageMigration.Proofs.Migration.Run
/-
  The plan for a tree as a function of its nodes.

  * `Transfer.files`, `Transfer.directories`: the nodes of a tree.
  * `Transfer.filePlace`, `Transfer.directoryPlace`: where they come to stand.
  * `plannedFile`, `plannedTree`: what is planned for a file and for a tree.
  * `Transfer.leaving`: the files that go in place.
  * `IsMoved`: what becomes of the files of a file system.
  * `Transfer.IsClear`: a tree goes to where it stands, or to where nothing does.

  Main statements: `planTree_eq_ok_iff` (the plan), `edits_of_planTree` (its changes),
  `migrateDirectory_cases` (how a run ends), `isMoved_of_migrateDirectory` (the files after a run
  that succeeds).
-/
namespace PackageMigration.Migration

open FileSystem
open PackageMigration.Path (IsName)

variable {depth : Nat}

/-! ## Nodes -/

def filesOf (nodes : List (Location × Node)) : List (Location × Bytes) :=
  nodes.filterMap fun
    | (l, .file content) => some (l, content)
    | (_, .directory) => none

def directoriesOf (nodes : List (Location × Node)) : List Location :=
  nodes.filterMap fun
    | (_, .file _) => none
    | (l, .directory) => some l

theorem mem_filesOf {nodes : List (Location × Node)} {l : Location} {content : Bytes} :
    (l, content) ∈ filesOf nodes ↔ (l, .file content) ∈ nodes := by
  rw [filesOf, List.mem_filterMap]
  constructor
  · rintro ⟨⟨k, _ | _⟩, hn, h⟩
    · cases h
      exact hn
    · cases h
  · exact fun h => ⟨_, h, rfl⟩

theorem mem_directoriesOf {nodes : List (Location × Node)} {l : Location} :
    l ∈ directoriesOf nodes ↔ (l, .directory) ∈ nodes := by
  rw [directoriesOf, List.mem_filterMap]
  constructor
  · rintro ⟨⟨k, _ | _⟩, hn, h⟩
    · cases h
    · cases h
      exact hn
  · exact fun h => ⟨_, h, rfl⟩

theorem filesOf_sublist (nodes : List (Location × Node)) :
    ((filesOf nodes).map Prod.fst).Sublist (nodes.map Prod.fst) := by
  induction nodes with
  | nil => exact .slnil
  | cons n nodes ih =>
    obtain ⟨l, content | _⟩ := n
    · exact ih.cons_cons l
    · exact ih.cons l

/-- The file gets a new name below the root. -/
def renames (t : Table) (root l : Location) : Bool :=
  (t.renameEntry? (relativeName root l)).isSome

/-- The name of a file below the destination. -/
def fileName (t : Table) (root l : Location) : Bytes :=
  (t.renameEntry? (relativeName root l)).getD (relativeName root l)

/-- The name of a directory below the destination. -/
def directoryName (t : Table) (root l : Location) : Bytes :=
  (renameDirectory? t (relativeName root l)).getD (relativeName root l)

namespace Transfer

/-- The files of the tree with their contents. -/
def files (m : Transfer) (fs : FileSystem) : List (Location × Bytes) := filesOf (m.nodes fs)

/-- The directories of the tree. -/
def directories (m : Transfer) (fs : FileSystem) : List Location := directoriesOf (m.nodes fs)

/-- Where a name below the destination leads. -/
def placeOf (m : Transfer) (name : Bytes) : Location :=
  m.destination ++ Bytes.splitOn Byte.slash name

/-- Where a file of the tree comes to stand. -/
def filePlace (m : Transfer) (t : Table) (l : Location) : Location :=
  m.placeOf (fileName t m.source l)

/-- Where a directory of the tree comes to stand. -/
def directoryPlace (m : Transfer) (t : Table) (l : Location) : Location :=
  m.placeOf (directoryName t m.source l)

end Transfer

/-- The new content of a file, if it changes. -/
def newContent? (c : Conversion depth) (l : Location) (content : Bytes) : Option Bytes :=
  match (c.file l.path content).result with
  | .ok new => new
  | .error _ => none

/-- What is planned for a file. -/
def plannedFile (c : Conversion depth) (m : Transfer) (f : Location × Bytes) : PlannedFile where
  source := f.1.path
  target := m.targetPath (fileName c.table m.source f.1)
  renamed := renames c.table m.source f.1
  content := m.staged? (renames c.table m.source f.1) f.2 (newContent? c f.1 f.2)

/-- The plan for nodes, if there is one. -/
def plannedTree (c : Conversion depth) (m : Transfer) (nodes : List (Location × Node)) : TreePlan where
  directories := (directoriesOf nodes).map fun l => m.targetPath (directoryName c.table m.source l)
  files := (filesOf nodes).map (plannedFile c m)
  converted := nodes.any fun
    | (l, .file content) => (newContent? c l content).isSome || renames c.table m.source l
    | (l, .directory) => (renameDirectory? c.table (relativeName m.source l)).isSome

/-- The file can be read and converted, and staged if it is. -/
structure Converts (c : Conversion depth) (m : Transfer) (f : Location × Bytes) : Prop where
  usable : Path.isUsable f.1.path
  result : (c.file f.1.path f.2).result = .ok (newContent? c f.1 f.2)
  room : (plannedFile c m f).content.isSome → m.hasFileRoom

/-! ## Plans -/

variable {c : Conversion depth} {m : Transfer}

/-- Nothing is staged for a file that stays where and as it is. -/
theorem Transfer.staged?_eq_none_iff {renamed : Bool} {content : Bytes} {new : Option Bytes} :
    m.staged? renamed content new = none ↔ new = none ∧ m.inPlace ∧ renamed = false := by
  cases new with
  | some new => simp [Transfer.staged?]
  | none => simp [Transfer.staged?]

theorem content_plannedFile_eq_none_iff {f : Location × Bytes} : (plannedFile c m f).content = none ↔
    newContent? c f.1 f.2 = none ∧ m.inPlace ∧ renames c.table m.source f.1 = false := by
  rw [plannedFile, Transfer.staged?_eq_none_iff]

theorem plannedTree_file (l : Location) (content : Bytes) (nodes : List (Location × Node)) :
    plannedTree c m ((l, .file content) :: nodes) = (plannedTree c m nodes).withFile
      (plannedFile c m (l, content)) (newContent? c l content).isSome := by
  simp [plannedTree, TreePlan.withFile, filesOf, directoriesOf, plannedFile, Bool.or_assoc]

/-- There is a plan for a file if it can be read and converted, and staged if it is. -/
theorem result_planFile_eq_ok_iff {l : Location} {renamed : Option Bytes} {target content : Bytes}
    {r : PlannedFile × Bool} :
    (planFile c m l renamed target content).result = .ok r ↔
      Path.isUsable l.path ∧ ∃ new, (c.file l.path content).result = .ok new ∧
        ((m.staged? renamed.isSome content new).isSome → m.hasFileRoom) ∧
        r = (⟨l.path, m.targetPath target, renamed.isSome, m.staged? renamed.isSome content new⟩,
          new.isSome) := by
  unfold planFile
  cases hu : Path.isUsable l.path with
  | false =>
    rw [Bool.not_false, if_pos rfl, Run.result_bind]
    exact iff_of_false nofun fun h => Bool.false_ne_true h.1
  | true =>
    rw [Bool.not_true, if_neg Bool.false_ne_true, Run.result_bind, bind_eq_ok_iff]
    simp only [Run.result_ofExcept, true_and]
    refine exists_congr fun new => and_congr_right fun _ => ?_
    split
    next hfull =>
      rw [Bool.and_eq_true_iff, Bool.not_eq_true'] at hfull
      refine iff_of_false nofun fun h => ?_
      rw [h.1 hfull.1] at hfull
      cases hfull.2
    next hroom =>
      rw [Bool.and_eq_true_iff, Bool.not_eq_true', not_and, Bool.not_eq_false] at hroom
      refine ⟨fun h => ⟨hroom, (Except.ok.inj h).symm⟩, ?_⟩
      rintro ⟨-, rfl⟩
      rfl

theorem planFile_eq_ok_iff {l : Location} {content : Bytes} {r : PlannedFile × Bool} :
    (planFile c m l (c.table.renameEntry? (relativeName m.source l)) (fileName c.table m.source l)
      content).result = .ok r ↔
      Converts c m (l, content) ∧
        r = (plannedFile c m (l, content), (newContent? c l content).isSome) := by
  -- under its own name the new content is compared as it is; otherwise the conversion is evaluated
  obtain ⟨new, hnew⟩ : ∃ new, newContent? c l content = new := ⟨_, rfl⟩
  have hplanned : plannedFile c m (l, content) = ⟨l.path, m.targetPath (fileName c.table m.source l),
      (c.table.renameEntry? (relativeName m.source l)).isSome,
      m.staged? (c.table.renameEntry? (relativeName m.source l)).isSome content new⟩ := by
    rw [plannedFile, renames, hnew]
  rw [result_planFile_eq_ok_iff, hplanned, hnew]
  constructor
  · rintro ⟨husable, new', hresult, hroom, rfl⟩
    obtain rfl : new = new' := by rw [← hnew, newContent?, hresult]
    exact ⟨⟨husable, by rw [hresult, hnew], by rwa [hplanned]⟩, rfl⟩
  · rintro ⟨⟨husable, hresult, hroom⟩, rfl⟩
    rw [hnew] at hresult
    rw [hplanned] at hroom
    exact ⟨husable, new, hresult, hroom, rfl⟩

section
variable (c m) (total done : Nat) (taken : List Bytes) (l : Location) (nodes : List (Location × Node))

theorem planNodes_file (content : Bytes) :
    planNodes c m total done taken ((l, .file content) :: nodes) =
      if fileName c.table m.source l ∈ taken then
        Run.fail (.fileRepeated m.name (fileName c.table m.source l))
      else
        planFile c m l (c.table.renameEntry? (relativeName m.source l)) (fileName c.table m.source l)
          content >>= fun planned => Run.report (.converting (done + 1) total) >>= fun _ =>
            planNodes c m total (done + 1) (fileName c.table m.source l :: taken) nodes >>= fun plan =>
              pure (plan.withFile planned.1 planned.2) :=
  rfl

theorem planNodes_directory :
    planNodes c m total done taken ((l, .directory) :: nodes) =
      planNodes c m total (done + 1) taken nodes >>= fun plan =>
        pure (plan.withDirectory (m.targetPath (directoryName c.table m.source l))
          (renameDirectory? c.table (relativeName m.source l)).isSome) :=
  rfl

end

/-- **There is a plan for nodes if every file can be converted and staged and no two come to have the
same name.** -/
theorem planNodes_eq_ok_iff {total done : Nat} {taken : List Bytes} {nodes : List (Location × Node)}
    {plan : TreePlan} : (planNodes c m total done taken nodes).result = .ok plan ↔
      plan = plannedTree c m nodes ∧ ((filesOf nodes).map fun f => fileName c.table m.source f.1).Nodup ∧
        ∀ f ∈ filesOf nodes, fileName c.table m.source f.1 ∉ taken ∧ Converts c m f := by
  induction nodes generalizing done taken plan with
  | nil =>
    change Except.ok TreePlan.empty = .ok plan ↔ _
    rw [Except.ok.injEq, eq_comm]
    exact ⟨fun h => ⟨h, .nil, nofun⟩, fun h => h.1⟩
  | cons n nodes ih =>
    obtain ⟨l, content | _⟩ := n
    · rw [planNodes_file, plannedTree_file]
      have hof : filesOf ((l, .file content) :: nodes) = (l, content) :: filesOf nodes := rfl
      rw [hof, List.map_cons, List.nodup_cons, List.forall_mem_cons]
      split
      next htaken => exact iff_of_false nofun fun h => h.2.2.1.1 htaken
      next htaken =>
        simp only [Run.result_bind, bind_eq_ok_iff, ih, Run.result_pure, Except.ok.injEq]
        constructor
        · rintro ⟨r, hr, -, -, -, ⟨rfl, hdistinct, hnew⟩, rfl⟩
          obtain ⟨hconverts, rfl⟩ := planFile_eq_ok_iff.1 hr
          dsimp only
          refine ⟨rfl, ⟨fun hm => ?_, hdistinct⟩, ⟨htaken, hconverts⟩,
            fun f hf => ⟨fun hm => ?_, (hnew f hf).2⟩⟩
          · obtain ⟨f, hf, he⟩ := List.mem_map.1 hm
            exact (hnew f hf).1 (he ▸ List.mem_cons_self)
          · exact (hnew f hf).1 (List.mem_cons_of_mem _ hm)
        · rintro ⟨rfl, ⟨hnotMem, hdistinct⟩, ⟨-, hconverts⟩, hnew⟩
          refine ⟨_, planFile_eq_ok_iff.2 ⟨hconverts, rfl⟩, (), rfl, plannedTree c m nodes,
            ⟨rfl, hdistinct, fun f hf => ⟨?_, (hnew f hf).2⟩⟩, by dsimp only⟩
          rw [List.mem_cons, not_or]
          exact ⟨fun he => hnotMem (List.mem_map.2 ⟨f, hf, he⟩), (hnew f hf).1⟩
    · rw [planNodes_directory]
      simp only [Run.result_bind, bind_eq_ok_iff, ih]
      constructor
      · rintro ⟨-, ⟨rfl, hrest⟩, hplan⟩
        obtain rfl := Except.ok.inj hplan
        exact ⟨rfl, hrest⟩
      · rintro ⟨rfl, hrest⟩
        exact ⟨_, ⟨rfl, hrest⟩, rfl⟩

/-- **There is a plan for a tree** if its directories can be listed, the destination has room, every file
can be converted and staged and no two come to have the same name. -/
theorem planTree_eq_ok_iff {fs : FileSystem} {plan : TreePlan} :
    (planTree c m fs).result = .ok plan ↔ plan = plannedTree c m (m.nodes fs) ∧
      unlisted? (m.nodes fs) = none ∧ m.hasAreaRoom ∧
        ((m.files fs).map fun f => fileName c.table m.source f.1).Nodup ∧
          ∀ f ∈ m.files fs, Converts c m f := by
  unfold planTree
  dsimp only
  cases hunlisted : unlisted? (m.nodes fs) with
  | some path => exact iff_of_false nofun nofun
  | none =>
    dsimp only
    split
    next hroom =>
      rw [planNodes_eq_ok_iff]
      simp [Transfer.files, hroom]
    next hroom => exact iff_of_false nofun fun h => hroom h.2.2.1

theorem planTree_eq_ok {fs : FileSystem} {plan : TreePlan}
    (h : (planTree c m fs).result = .ok plan) :
    plan.directories =
        (m.directories fs).map (fun l => m.targetPath (directoryName c.table m.source l)) ∧
      plan.files = (m.files fs).map (plannedFile c m) ∧
      ((m.files fs).map fun f => fileName c.table m.source f.1).Nodup ∧
      ∀ f ∈ m.files fs, Path.isUsable f.1.path := by
  obtain ⟨rfl, -, -, hdistinct, hconverts⟩ := planTree_eq_ok_iff.1 h
  exact ⟨rfl, rfl, hdistinct, fun f hf => (hconverts f hf).usable⟩

/-! ## Places -/

section
variable {fs : FileSystem} {t : Table} {l : Location} {content : Bytes}

theorem Transfer.isNested_of_outside {m : Transfer} (h : ¬ m.source <+: m.destination) :
    m.isNested = false := by
  rw [isNested, Bool.and_eq_false_iff]
  exact .inr (Bool.eq_false_iff.2 (mt List.isPrefixOf_iff_prefix.1 h))

theorem Transfer.inPlace_of_outside {m : Transfer} (h : ¬ m.source <+: m.destination) :
    m.inPlace = false := by
  rw [inPlace, beq_eq_false_iff_ne]
  exact fun he => h (he ▸ List.prefix_refl _)

theorem mem_nodes_iff (hfs : fs.WellFormed) {n : Node} :
    (l, n) ∈ m.nodes fs ↔ fs.node? l = some n ∧ m.source <+: l ∧ l ≠ m.source ∧
      ¬ (m.isNested ∧ m.destination <+: l) := by
  rw [Transfer.nodes, List.mem_filter, hfs.mem_below_iff]
  simp only [Bool.not_eq_true', Bool.and_eq_false_iff, and_assoc, not_and_or, Bool.not_eq_true,
    ← List.isPrefixOf_iff_prefix]

theorem mem_files_iff (hfs : fs.WellFormed) :
    (l, content) ∈ m.files fs ↔ fs.file? l = some content ∧ m.source <+: l ∧ l ≠ m.source ∧
      ¬ (m.isNested ∧ m.destination <+: l) := by
  rw [Transfer.files, mem_filesOf, mem_nodes_iff hfs, file?_eq_some_iff]

theorem mem_directories_iff (hfs : fs.WellFormed) :
    l ∈ m.directories fs ↔ fs.node? l = some .directory ∧ m.source <+: l ∧ l ≠ m.source ∧
      ¬ (m.isNested ∧ m.destination <+: l) := by
  rw [Transfer.directories, mem_directoriesOf, mem_nodes_iff hfs]

theorem relativeName_append (root r : Location) :
    relativeName root (root ++ r) = [Byte.slash].intercalate r := by
  rw [relativeName, List.drop_left]

/-- The parts of a name relative to a root. -/
theorem splitOn_relativeName {root : Location} (h : root <+: l) (hne : l ≠ root)
    (hname : ∀ p ∈ l, IsName p) :
    Bytes.splitOn Byte.slash (relativeName root l) = l.drop root.length := by
  obtain ⟨rest, rfl⟩ := h
  rw [relativeName_append, List.drop_left]
  refine Bytes.splitOn_intercalate ?_ fun p hp =>
    (hname p (List.mem_append_right root hp)).slash_notMem
  rintro rfl
  exact hne (List.append_nil root)

theorem isName_relativeName {root : Location} (h : root <+: l) (hne : l ≠ root)
    (hname : ∀ p ∈ l, IsName p) :
    ∀ p ∈ Bytes.splitOn Byte.slash (relativeName root l), IsName p := by
  rw [splitOn_relativeName h hne hname]
  exact fun p hp => hname p (List.mem_of_mem_drop hp)

theorem getLast?_of_isName {name : Bytes} (h : ∀ p ∈ Bytes.splitOn Byte.slash name, IsName p) :
    name.getLast? ≠ some Byte.slash := by
  have hpath := getLast?_path (Bytes.splitOn_ne_nil Byte.slash name) h
  rw [Location.path_eq, Bytes.intercalate_splitOn] at hpath
  by_cases hname : name = []
  · simp [hname]
  · rwa [List.getLast?_cons_of_ne_nil hname] at hpath

section
variable {root : Location} (h : root <+: l) (hne : l ≠ root) (hname : ∀ p ∈ l, IsName p)
include h hne hname

/-- The new name of a file is a path of names. -/
theorem isName_fileName : ∀ p ∈ Bytes.splitOn Byte.slash (fileName t root l), IsName p := by
  have hold := isName_relativeName h hne hname
  rw [fileName]
  cases hr : t.renameEntry? (relativeName root l) with
  | none => exact hold
  | some new => exact (Table.reworded_renameEntry? hr).isName hold

/-- The new name of a directory is a path of names. -/
theorem isName_directoryName :
    ∀ p ∈ Bytes.splitOn Byte.slash (directoryName t root l), IsName p := by
  have hold := isName_relativeName h hne hname
  rw [directoryName]
  cases hr : renameDirectory? t (relativeName root l) with
  | none => exact hold
  | some new => exact (reworded_renameDirectory? (getLast?_of_isName hold) hr).isName hold

end

theorem placeOf_ne_nil (m : Transfer) (name : Bytes) : m.placeOf name ≠ [] :=
  List.append_ne_nil_of_right_ne_nil _ (Bytes.splitOn_ne_nil _ _)

theorem filePlace_ne_nil (m : Transfer) (t : Table) (l : Location) : m.filePlace t l ≠ [] :=
  placeOf_ne_nil m _

theorem isName_placeOf (hd : ∀ p ∈ m.destination, IsName p) {name : Bytes}
    (h : ∀ p ∈ Bytes.splitOn Byte.slash name, IsName p) : ∀ p ∈ m.placeOf name, IsName p :=
  List.forall_mem_append.2 ⟨hd, h⟩

/-- The place of a file is a location of names. -/
theorem isName_filePlace (hfs : fs.WellFormed) (hd : ∀ p ∈ m.destination, IsName p)
    {f : Location × Bytes} (hf : f ∈ m.files fs) : ∀ p ∈ m.filePlace t f.1, IsName p := by
  obtain ⟨hfile, hsource, hne, -⟩ := (mem_files_iff hfs).1 hf
  exact isName_placeOf hd (isName_fileName hsource hne (hfs.isName_of_file? hfile))

/-- The place of a directory is a location of names. -/
theorem isName_directoryPlace (hfs : fs.WellFormed) (hd : ∀ p ∈ m.destination, IsName p)
    (hl : l ∈ m.directories fs) : ∀ p ∈ m.directoryPlace t l, IsName p := by
  obtain ⟨hnode, hsource, hne, -⟩ := (mem_directories_iff hfs).1 hl
  exact isName_placeOf hd (isName_directoryName hsource hne (hfs.isName_of_node? hnode))

theorem placeOf_inj {name name' : Bytes} (h : m.placeOf name = m.placeOf name') : name = name' :=
  Bytes.eq_of_splitOn_eq (List.append_cancel_left h)

/-- The absolute path of a name below the destination. -/
theorem targetPath_eq (hd : ∀ p ∈ m.destination, IsName p) (name : Bytes) :
    m.targetPath name = (m.placeOf name).path := by
  have hparts : (Bytes.splitOn Byte.slash name).flatMap (Byte.slash :: ·) = Byte.slash :: name := by
    have := Location.path_eq (Bytes.splitOn Byte.slash name)
    rwa [Location.path, if_neg (Bytes.splitOn_ne_nil _ _), Bytes.intercalate_splitOn] at this
  have hplace : (m.placeOf name).path =
      m.destination.flatMap (Byte.slash :: ·) ++ Byte.slash :: name := by
    rw [Location.path, if_neg (placeOf_ne_nil m name), Transfer.placeOf, List.flatMap_append, hparts]
  rw [hplace, Transfer.targetPath, Path.join]
  by_cases hnil : m.destination = []
  · simp [hnil, Location.path]
  · have hpath : m.destination.path ≠ [] := by simp [Location.path_eq]
    rw [if_neg (not_or.2 ⟨hpath, getLast?_path hnil hd⟩), Location.path, if_neg hnil]

/-- A file that keeps its name stays where it is in place. -/
theorem filePlace_eq_self (hin : m.inPlace) (h : m.source <+: l) (hne : l ≠ m.source)
    (hname : ∀ p ∈ l, IsName p) (hr : renames t m.source l = false) : m.filePlace t l = l := by
  rw [renames, Option.isSome_eq_false_iff, Option.isNone_iff_eq_none] at hr
  have hsource : m.source = m.destination := by simpa [Transfer.inPlace] using hin
  rw [Transfer.filePlace, fileName, hr, Option.getD_none, Transfer.placeOf,
    splitOn_relativeName h hne hname, ← hsource]
  obtain ⟨rest, rfl⟩ := h
  rw [List.drop_left]

end

/-! ## Changes -/

/-- The files that leave their places. -/
def Transfer.leaving (m : Transfer) (t : Table) (fs : FileSystem) : List Location :=
  ((m.files fs).filter fun f => m.inPlace && renames t m.source f.1).map Prod.fst

/-- No two files come to stand at one place. -/
theorem nodup_filePlace {fs : FileSystem} {plan : TreePlan}
    (hplan : (planTree c m fs).result = .ok plan) :
    ((m.files fs).map fun f => m.filePlace c.table f.1).Nodup := by
  have hplaces := (planTree_eq_ok hplan).2.2.1.map fun _ _ => placeOf_inj (m := m)
  rwa [List.map_map] at hplaces

theorem nodup_files {m : Transfer} {fs : FileSystem} (hfs : fs.WellFormed) :
    ((m.files fs).map Prod.fst).Nodup :=
  (hfs.nodup_below m.source).sublist ((filesOf_sublist _).trans (List.filter_sublist.map Prod.fst))

theorem nodup_leaving {m : Transfer} {t : Table} {fs : FileSystem} (hfs : fs.WellFormed) :
    (m.leaving t fs).Nodup :=
  (nodup_files hfs).sublist (List.filter_sublist.map Prod.fst)

/-- The files of a tree are moved: `files` is what becomes of `fs`. -/
structure IsMoved (c : Conversion depth) (m : Transfer) (fs files : FileSystem) : Prop where
  gone : ∀ k ∈ m.leaving c.table fs, files.file? k = none
  placed : ∀ f ∈ m.files fs, m.filePlace c.table f.1 ∉ m.leaving c.table fs →
    files.file? (m.filePlace c.table f.1) = some ((newContent? c f.1 f.2).getD f.2)
  kept : ∀ k ∉ m.leaving c.table fs, (∀ f ∈ m.files fs, m.filePlace c.table f.1 ≠ k) →
    files.file? k = fs.file? k

/-- The tree is migrated in place, or nothing stands below the destination. -/
def Transfer.IsClear (m : Transfer) (fs : FileSystem) : Prop :=
  m.inPlace ∨ ∀ k, m.destination <+: k → k ≠ m.destination → fs.node? k = none

/-- Every file below the destination is one of the tree. -/
theorem IsMoved.exists_of_file? {fs files : FileSystem} {k : Location} {content : Bytes}
    (h : IsMoved c m fs files) (hfs : fs.WellFormed)
    (hclear : m.IsClear fs) (hk : files.file? k = some content) (hbelow : m.destination <+: k)
    (hne : k ≠ m.destination) : ∃ f ∈ m.files fs, m.filePlace c.table f.1 = k ∧
      (newContent? c f.1 f.2).getD f.2 = content := by
  have hstays : k ∉ m.leaving c.table fs := by
    intro hleaving
    rw [h.gone k hleaving] at hk
    cases hk
  by_cases hplace : ∃ f ∈ m.files fs, m.filePlace c.table f.1 = k
  · obtain ⟨f, hf, rfl⟩ := hplace
    rw [h.placed f hf hstays] at hk
    exact ⟨f, hf, rfl, Option.some.inj hk⟩
  · push Not at hplace
    rw [h.kept k hstays hplace] at hk
    rcases hclear with hin | hclear
    · have hsame : m.source = m.destination := eq_of_beq hin
      rw [← hsame] at hbelow hne
      have hf : (k, content) ∈ m.files fs :=
        (mem_files_iff hfs).2 ⟨hk, hbelow, hne, by simp [Transfer.isNested, hin]⟩
      have hname : renames c.table m.source k = false := by
        rw [Bool.eq_false_iff]
        intro hname
        exact hstays (List.mem_map.2 ⟨_, List.mem_filter.2 ⟨hf, by rw [hin, hname]; rfl⟩, rfl⟩)
      exact absurd (filePlace_eq_self hin hbelow hne (hfs.isName_of_file? hk) hname)
        (hplace (k, content) hf)
    · rw [FileSystem.file?, hclear k hbelow hne] at hk
      cases hk

section
variable {fs fs' : FileSystem} {plan : TreePlan} (hd : ∀ p ∈ m.destination, IsName p)
  (hplan : (planTree c m fs).result = .ok plan)
include hd hplan

/-- The changes that a plan stands for. -/
theorem edits_of_planTree : plan.edits m.inPlace =
    (m.directories fs).map (fun l => .makeDirectories (m.directoryPlace c.table l).path) ++
      (m.files fs).flatMap (fun f =>
        ((plannedFile c m f).content.map (commit (m.filePlace c.table f.1).path)).getD []) ++
      (m.leaving c.table fs).map fun l => .remove l.path := by
  obtain ⟨hdirectories, hfiles, -⟩ := planTree_eq_ok hplan
  rw [TreePlan.edits, hdirectories, hfiles, List.map_map, List.flatMap_map, List.filter_map,
    List.map_map, Transfer.leaving, List.map_map]
  simp only [Function.comp_def, plannedFile, targetPath_eq hd]
  rfl

/-- **The files after the changes that a plan stands for.** -/
theorem isMoved_of_applyAll_edits (hfs : fs.WellFormed)
    (h : Edit.applyAll fs (plan.edits m.inPlace) = (fs', none)) : IsMoved c m fs fs' := by
  have hfile : ∀ f ∈ m.files fs, fs.file? f.1 = some f.2 ∧ m.source <+: f.1 ∧ f.1 ≠ m.source ∧
      ∀ p ∈ f.1, IsName p := by
    intro f hf
    obtain ⟨hcontent, hsource, hne, -⟩ := (mem_files_iff hfs).1 hf
    exact ⟨hcontent, hsource, hne, hfs.isName_of_file? hcontent⟩
  rw [edits_of_planTree hd hplan, Edit.applyAll_append_eq_none_iff] at h
  obtain ⟨fs₂, h, hremove⟩ := h
  obtain ⟨fs₁, hmake, hcommit⟩ := Edit.applyAll_append_eq_none_iff.1 h
  have hpaths : (m.directories fs).map (fun l => Edit.makeDirectories (m.directoryPlace c.table l).path) =
      ((m.directories fs).map fun l => (m.directoryPlace c.table l).path).map .makeDirectories := by
    rw [List.map_map]
    rfl
  rw [hpaths] at hmake
  have hgrown : Grown fs fs₁ := Edit.applyAll_makeDirectories hmake
  obtain ⟨hplaced, hother⟩ := applyAll_commits
    (fun f hf => ⟨filePlace_ne_nil m c.table f.1, isName_filePlace hfs hd hf⟩)
    (nodup_filePlace hplan) hcommit
  have hremoved := applyAll_remove (fun l hl => by
    obtain ⟨f, hf, rfl⟩ := List.mem_map.1 hl
    obtain ⟨-, hsource, hne, hname⟩ := hfile f (List.mem_filter.1 hf).1
    refine ⟨?_, hname⟩
    rintro hnil
    rw [hnil] at hsource hne
    exact hne (List.prefix_nil.1 hsource).symm) hremove
  refine ⟨fun k hk => ?_, fun f hf hk => ?_, fun k hk hne => ?_⟩
  · rw [hremoved, if_pos hk]
  · rw [hremoved, if_neg hk, hplaced f hf, hgrown.file?]
    obtain ⟨hcontent, hsource, hne, hname⟩ := hfile f hf
    unfold plannedFile
    cases newContent? c f.1 f.2 with
    | some new => rfl
    | none =>
      by_cases hstays : m.inPlace && !renames c.table m.source f.1
      · obtain ⟨hin, hr⟩ := Bool.and_eq_true_iff.1 hstays
        rw [Bool.not_eq_true'] at hr
        simp only [Transfer.staged?, hstays, if_true, Option.none_or]
        rw [filePlace_eq_self hin hsource hne hname hr, hcontent]
        rfl
      · rw [Bool.not_eq_true] at hstays
        simp only [Transfer.staged?, hstays]
        rfl
  · rw [hremoved, if_neg hk, hother k ?_, hgrown.file?]
    intro hm
    obtain ⟨f, hf, he⟩ := List.mem_map.1 hm
    exact hne f hf he

end

/-! ## Runs -/

section
variable {source destination : Bytes} {fs : FileSystem}

theorem resolve?_of_transfer? (h : transfer? source destination fs = .ok m) :
    fs.resolve? source = some m.source ∧ fs.resolve? destination = some m.destination := by
  unfold transfer? at h
  split at h
  · cases h
  · cases h
  next s d hs hd =>
    obtain rfl := Except.ok.inj h
    exact ⟨hs, hd⟩

theorem transfer?_eq_ok (h : transfer? source destination fs = .ok m) :
    m.source = fs.locationOf source ∧ m.destination = fs.locationOf destination ∧ destination ≠ [] := by
  obtain ⟨hsource, hdestination⟩ := resolve?_of_transfer? h
  obtain ⟨hpath, hd⟩ := resolve?_eq_some hdestination
  exact ⟨(resolve?_eq_some hsource).2, hd, hpath⟩

theorem applyAll_makeDirectories (fs : FileSystem) (path : Bytes) :
    Edit.applyAll fs [.makeDirectories path] =
      ((fs.makeDirectories path).1, if (fs.makeDirectories path).2 then none else some path) := by
  rw [Edit.applyAll, Edit.apply]
  obtain ⟨fs', _ | _⟩ := fs.makeDirectories path <;> rfl

/-- A run for which there is a plan makes its changes. -/
theorem migrateDirectory_of_plan {fs₁ : FileSystem} {plan : TreePlan}
    (hmade : fs.makeDirectories destination = (fs₁, true))
    (htransfer : transfer? source destination fs₁ = .ok m)
    (hplan : (planTree c m fs₁).result = .ok plan) :
    (migrateDirectory c source destination fs).run.result =
        (perform (plan.edits m.inPlace) plan.converted fs₁).run.result ∧
      (migrateDirectory c source destination fs).files =
        (perform (plan.edits m.inPlace) plan.converted fs₁).files := by
  unfold migrateDirectory migrateTree
  rw [applyAll_makeDirectories, hmade]
  simp only [if_true, htransfer, hplan]
  exact ⟨rfl, rfl⟩

/-- A run for which there is no plan fails, and a destination that it made is removed. -/
theorem migrateDirectory_of_no_plan {fs₁ : FileSystem}
    (hmade : fs.makeDirectories destination = (fs₁, true))
    (h : ∀ m plan, transfer? source destination fs₁ = .ok m → (planTree c m fs₁).result ≠ .ok plan) :
    (∃ e, (migrateDirectory c source destination fs).run.result = .error e) ∧
      (migrateDirectory c source destination fs).files =
        if fs.hasNode destination then fs₁ else fs₁.removeDirectory destination := by
  have hundo : (if fs.hasNode destination then id else fun files : FileSystem =>
      files.removeDirectory destination) fs₁ =
        if fs.hasNode destination then fs₁ else fs₁.removeDirectory destination := by
    split <;> rfl
  unfold migrateDirectory migrateTree
  rw [applyAll_makeDirectories, hmade]
  simp only [if_true]
  cases htransfer : transfer? source destination fs₁ with
  | error e => exact ⟨⟨e, rfl⟩, hundo⟩
  | ok m =>
    dsimp only
    cases hplan : (planTree c m fs₁).result with
    | error e => exact ⟨⟨e, rfl⟩, hundo⟩
    | ok plan => exact absurd hplan (h m plan htransfer)

/-- A run fails before the destination is there, or before there is a plan, or it makes the changes of
a plan as far as they can be made. -/
theorem migrateDirectory_cases (c : Conversion depth) (source destination : Bytes) (fs : FileSystem) :
    let o := migrateDirectory c source destination fs
    let made := fs.makeDirectories destination
    (made.2 = false ∧ o.run.result = .error (.io destination) ∧ o.files = made.1) ∨
      (made.2 = true ∧ (∃ e, o.run.result = .error e) ∧ o.files =
        if fs.hasNode destination then made.1 else made.1.removeDirectory destination) ∨
      (made.2 = true ∧ ∃ m plan, transfer? source destination made.1 = .ok m ∧
        (planTree c m made.1).result = .ok plan ∧
          ((∃ path, o.run.result = .error (.io path) ∧
              Edit.applyAll made.1 (plan.edits m.inPlace) = (o.files, some path)) ∨
            (o.run.result = .ok plan.converted ∧
              Edit.applyAll made.1 (plan.edits m.inPlace) = (o.files, none)))) := by
  dsimp only
  rcases hmade : fs.makeDirectories destination with ⟨fs₁, _ | _⟩
  · refine .inl ⟨rfl, ?_⟩
    unfold migrateDirectory
    rw [applyAll_makeDirectories, hmade]
    exact ⟨rfl, rfl⟩
  · by_cases h : ∃ m plan, transfer? source destination fs₁ = .ok m ∧
      (planTree c m fs₁).result = .ok plan
    · obtain ⟨m, plan, htransfer, hplan⟩ := h
      obtain ⟨hresult, hfiles⟩ := migrateDirectory_of_plan hmade htransfer hplan
      refine .inr (.inr ⟨rfl, m, plan, htransfer, hplan, ?_⟩)
      rw [hresult, hfiles, perform]
      obtain ⟨fs₂, _ | path⟩ := Edit.applyAll fs₁ (plan.edits m.inPlace)
      · exact .inr ⟨rfl, rfl⟩
      · exact .inl ⟨path, rfl, rfl⟩
    · exact .inr (.inl ⟨rfl, migrateDirectory_of_no_plan hmade fun m plan htransfer hplan =>
        h ⟨m, plan, htransfer, hplan⟩⟩)

/-- A run that succeeds has made its destination and then the changes of a plan. -/
theorem exists_plan_of_migrateDirectory {converted : Bool}
    (h : (migrateDirectory c source destination fs).run.result = .ok converted) :
    ∃ m plan, transfer? source destination (fs.makeDirectories destination).1 = .ok m ∧
      (planTree c m (fs.makeDirectories destination).1).result = .ok plan ∧
      Edit.applyAll (fs.makeDirectories destination).1 (plan.edits m.inPlace) =
        ((migrateDirectory c source destination fs).files, none) ∧
      m.source = fs.locationOf source ∧ m.destination = fs.locationOf destination ∧
      (fs.makeDirectories destination).1.isDirectory destination ∧
      (fs.makeDirectories destination).1.node? m.destination = some .directory := by
  rcases migrateDirectory_cases c source destination fs with
    ⟨-, herror, -⟩ | ⟨-, ⟨e, herror⟩, -⟩ | ⟨hmade, m, plan, htransfer, hplan, hedits⟩
  · rw [h] at herror
    cases herror
  · rw [h] at herror
    cases herror
  · rcases hedits with ⟨path, herror, -⟩ | ⟨-, happly⟩
    · rw [h] at herror
      cases herror
    · obtain ⟨hsource, hdestination, hpath⟩ := transfer?_eq_ok htransfer
      rw [locationOf_congr (grown_makeDirectories fs destination).here] at hsource hdestination
      have hnode := node?_of_makeDirectories hpath hmade
      rw [← hdestination] at hnode
      exact ⟨m, plan, htransfer, hplan, happly, hsource, hdestination,
        isDirectory_of_makeDirectories hpath hmade, hnode⟩

/-- **The files after a run that succeeds.** -/
theorem isMoved_of_migrateDirectory {converted : Bool} (hfs : fs.WellFormed)
    (h : (migrateDirectory c source destination fs).run.result = .ok converted) :
    ∃ (m : Transfer) (fs₁ : FileSystem), Grown fs fs₁ ∧ m.source = fs.locationOf source ∧
      m.destination = fs.locationOf destination ∧ fs₁.node? m.destination = some .directory ∧
      IsMoved c m fs₁ (migrateDirectory c source destination fs).files := by
  have hgrown := grown_makeDirectories fs destination
  obtain ⟨m, plan, -, hplan, happly, hsource, hdestination, -, hnode⟩ := exists_plan_of_migrateDirectory h
  have hfs₁ := hgrown.wellFormed hfs
  exact ⟨m, _, hgrown, hsource, hdestination, hnode,
    isMoved_of_applyAll_edits (hfs₁.isName_of_node? hnode) hplan hfs₁ happly⟩

end

end PackageMigration.Migration
