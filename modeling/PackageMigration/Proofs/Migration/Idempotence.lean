import PackageMigration.Proofs.Entry.Ancestor
import PackageMigration.Proofs.Migration.Completeness
import PackageMigration.Proofs.Migration.File
import PackageMigration.Proofs.Migration.Rest
/-
  A tree that was migrated is migrated once more in place.

  Main statements: `file_filePlace` (no file is converted again), `exists_directoryName_eq` (what a
  directory of a migrated tree would be called is there), `isAtRest_of_applyAll_edits`,
  `migrateDirectory_idempotent`.
-/
namespace PackageMigration.Migration

open FileSystem
open PackageMigration.Path (IsName)
open Profile (oldRoot newRoot)

/-! ## Names above other names -/

section
variable {p : Profile} {root l : Location} {front rest : List Bytes} {new : Bytes}

/-- What a front of a new name would be called is what a front of the old name is called. -/
theorem exists_front {name u' w' : Bytes}
    (h : (p.table.renameEntry? name).getD name = u' ++ Byte.slash :: w')
    (hname : ∀ q ∈ Bytes.splitOn Byte.slash u', IsName q)
    (hnew : renameDirectory? p.table u' = some new) :
    ∃ u w, name = u ++ Byte.slash :: w ∧ ((∀ q ∈ Bytes.splitOn Byte.slash u, IsName q) →
      (renameDirectory? p.table u).getD u = new) := by
  obtain ⟨u, w, rfl, -, -, hcut⟩ := Profile.exists_eq_of_renameEntry? h
  refine ⟨u, w, rfl, fun hu => ?_⟩
  have hsame := hcut _ ((renameDirectory?_eq_some_iff (getLast?_of_isName hname)).1 hnew)
  rw [getD_renameDirectory? (getLast?_of_isName hu)] at hsame
  exact List.append_cancel_right hsame

variable (hl : root <+: l) (hne : l ≠ root) (hname : ∀ q ∈ l, IsName q)
include hl hne hname

/-- What a directory above a renamed file would be called is what one above the file is called. -/
theorem exists_directoryName_of_fileName
    (h : Bytes.splitOn Byte.slash (fileName p.table root l) = front ++ rest) (hfront : front ≠ [])
    (hrest : rest ≠ []) (hnew : renameDirectory? p.table ([Byte.slash].intercalate front) = some new) :
    ∃ k, root <+: k ∧ k ≠ root ∧ k <+: l ∧ k ≠ l ∧ directoryName p.table root k = new := by
  have hnew' := isName_fileName (t := p.table) hl hne hname
  have hold := splitOn_relativeName hl hne hname
  rw [h, List.forall_mem_append] at hnew'
  have hparts := Bytes.splitOn_intercalate hfront fun q hq => (hnew'.1 q hq).slash_notMem
  obtain ⟨u, w, hu, hcut⟩ := exists_front (Bytes.eq_append_cons_of_splitOn h hfront hrest)
    (by rw [hparts]; exact hnew'.1) hnew
  rw [hu, Bytes.splitOn_append] at hold
  obtain ⟨r, rfl⟩ := hl
  rw [List.drop_left] at hold
  subst hold
  have hname' := List.forall_mem_append.1 (List.forall_mem_append.1 hname).2
  refine ⟨root ++ Bytes.splitOn Byte.slash u, List.prefix_append _ _, ?_, ?_, ?_, ?_⟩
  · simp [Bytes.splitOn_ne_nil]
  · rw [← List.append_assoc]
    exact List.prefix_append _ _
  · simp [Bytes.splitOn_ne_nil]
  · rw [directoryName, relativeName_append, Bytes.intercalate_splitOn]
    exact hcut hname'.1

/-- What a directory above a renamed one would be called, or itself, is what one above the old one is
called, or itself. -/
theorem exists_directoryName_of_directoryName
    (h : Bytes.splitOn Byte.slash (directoryName p.table root l) = front ++ rest) (hfront : front ≠ [])
    (hnew : renameDirectory? p.table ([Byte.slash].intercalate front) = some new) :
    ∃ k, root <+: k ∧ k ≠ root ∧ k <+: l ∧ directoryName p.table root k = new := by
  have hnew' := isName_directoryName (t := p.table) hl hne hname
  have hold := splitOn_relativeName hl hne hname
  have hlast := getLast?_of_isName (isName_relativeName hl hne hname)
  rw [h, List.forall_mem_append] at hnew'
  have hparts := Bytes.splitOn_intercalate hfront fun q hq => (hnew'.1 q hq).slash_notMem
  -- with a slash at its end the name is one of an entry
  have hfull : Bytes.splitOn Byte.slash (directoryName p.table root l ++ [Byte.slash]) =
      front ++ (rest ++ [[]]) := by
    rw [Bytes.splitOn_append, h, List.append_assoc]
    rfl
  have hentry := (getD_renameDirectory? (t := p.table) hlast).trans
    (Bytes.eq_append_cons_of_splitOn hfull hfront (by simp))
  obtain ⟨u, w, hu, hcut⟩ := exists_front hentry (by rw [hparts]; exact hnew'.1) hnew
  have hsplit := congrArg (Bytes.splitOn Byte.slash) hu
  rw [Bytes.splitOn_append, Bytes.splitOn_append, hold] at hsplit
  obtain ⟨ws, x, hw⟩ := exists_eq_concat (Bytes.splitOn_ne_nil Byte.slash w)
  rw [hw, ← List.append_assoc] at hsplit
  obtain ⟨r, rfl⟩ := hl
  rw [List.drop_left] at hsplit
  obtain ⟨rfl, -⟩ := List.append_inj' hsplit rfl
  have hname' := List.forall_mem_append.1 (List.forall_mem_append.1 hname).2
  refine ⟨root ++ Bytes.splitOn Byte.slash u, List.prefix_append _ _, ?_, ?_, ?_⟩
  · simp [Bytes.splitOn_ne_nil]
  · rw [← List.append_assoc]
    exact List.prefix_append _ _
  · rw [directoryName, relativeName_append, Bytes.intercalate_splitOn]
    exact hcut hname'.1

end

/-! ## Service registrations -/

section
variable {x y : Bytes} {l : Location} {front front' : List Bytes}

theorem forall₂_concat_right {α β : Type} {R : α → β → Prop} {as : List α} {bs : List β} {b : β}
    (h : List.Forall₂ R as (bs ++ [b])) : ∃ as' a, as = as' ++ [a] ∧ List.Forall₂ R as' bs ∧ R a b := by
  have hlast := List.forall₂_drop_append as bs [b] h
  obtain ⟨a, rest, ha, hrest, hdrop⟩ := List.forall₂_cons_right_iff.1 hlast
  rw [List.forall₂_nil_right_iff.1 hrest] at hdrop
  exact ⟨as.take bs.length, a, by rw [← hdrop, List.take_append_drop],
    List.forall₂_take_append as bs [b] h, ha⟩

theorem isServiceFile_path_iff (h : ∀ p ∈ l, IsName p) :
    ArtifactKind.isServiceFile l.path ↔ ArtifactKind.serviceParts <:+ l.dropLast := by
  rw [ArtifactKind.isServiceFile_iff, Path.names_path h]

/-- Where a moved path ends like one of service registrations, so does the old one, if its root does
wherever the new one does. -/
theorem suffix_of_moved {root root' : Location} (hy : EntryName.IsRoot y)
    (hroot : ∀ parts, parts <+: ArtifactKind.serviceParts → parts <:+ root' → parts <:+ root)
    (h : List.Forall₂ (Moved x y) front front') {parts : List Bytes}
    (hparts : parts <+: ArtifactKind.serviceParts) (hsuffix : parts <:+ root' ++ front') :
    parts <:+ root ++ front := by
  induction front' using List.reverseRecOn generalizing front parts with
  | nil =>
    obtain rfl := List.forall₂_nil_right_iff.1 h
    rw [List.append_nil] at hsuffix ⊢
    exact hroot parts hparts hsuffix
  | append_singleton front' q' ih =>
    obtain ⟨front, q, rfl, hfront, hq⟩ := forall₂_concat_right h
    rw [← List.append_assoc] at hsuffix ⊢
    rcases List.suffix_concat_iff.1 hsuffix with rfl | ⟨parts, rfl, hshort⟩
    · exact List.nil_suffix
    · -- no package begins with a letter of these parts
      have hletter : ∀ q ∈ ArtifactKind.serviceParts, EntryName.firstByte ∉ q := by decide +kernel
      obtain rfl := EntryName.eq_of_firstByte_notMem hy hq.symm (hletter q' (hparts.subset (by simp)))
      exact List.suffix_concat_iff.2
        (.inr ⟨parts, rfl, ih hfront ((List.prefix_append parts [q]).trans hparts) hshort⟩)

end

/-! ## Files -/

section
variable {format : Container.Format} {p : Profile} {mode : BufferMode} {depth : Nat} {m : Transfer}
  {fs : FileSystem} {f : Location × Bytes}

/-- **A file of a migrated tree is not converted again**, if its place is not one of service
registrations by the destination alone. -/
theorem file_filePlace (hfs : fs.WellFormed) (hd : ∀ q ∈ m.destination, IsName q)
    (hformat : ArtifactKind.of f.1.path f.2 = .archive →
      format.Faithful (Archive.Writable format p.table f.2)) (hmarked : format.IsMarked)
    (hservices : ∀ parts, parts <+: ArtifactKind.serviceParts → parts <:+ m.destination →
      parts <:+ m.source)
    (hlegible : ArtifactKind.of f.1.path f.2 = .manifest → Manifest.IsLegible f.2)
    (hf : f ∈ m.files fs) (h : Converts (⟨format, p.table, mode⟩ : Conversion depth) m f)
    (mode' : BufferMode) :
    (Conversion.file (⟨format, p.table, mode'⟩ : Conversion depth) (m.filePlace p.table f.1).path
      ((newContent? (⟨format, p.table, mode⟩ : Conversion depth) f.1 f.2).getD f.2)).result =
        .ok none := by
  obtain ⟨l, content⟩ := f
  obtain ⟨hfile, hsource, hne, -⟩ := (mem_files_iff hfs).1 hf
  have hname := hfs.isName_of_file? hfile
  have hplace := isName_filePlace (t := p.table) hfs hd hf
  have hparts := (p.moved_getD_renameEntry? (relativeName m.source l)).splitOn (b := Byte.slash)
    (by decide) (by decide)
  rw [splitOn_relativeName hsource hne hname] at hparts
  obtain ⟨front', q', hnew⟩ := exists_eq_concat (Bytes.splitOn_ne_nil Byte.slash (fileName p.table m.source l))
  change List.Forall₂ _ _ (Bytes.splitOn Byte.slash (fileName p.table m.source l)) at hparts
  rw [hnew] at hparts
  obtain ⟨front, q, hold, hfront, hq⟩ := forall₂_concat_right hparts
  obtain ⟨r, rfl⟩ := hsource
  rw [List.drop_left] at hold
  subst hold
  have hlocation : m.filePlace p.table (m.source ++ (front ++ [q])) =
      m.destination ++ front' ++ [q'] := by
    rw [Transfer.filePlace, Transfer.placeOf, hnew, List.append_assoc]
  rw [hlocation] at hplace ⊢
  rw [← List.append_assoc] at hname h hformat hlegible ⊢
  refine Conversion.file_getD hformat hmarked ?_ (fun hservice => ?_) hlegible h.result
    mode'
  · rwa [Path.fileName?_path hname, Path.fileName?_path hplace]
  · rw [isServiceFile_path_iff hplace, List.dropLast_concat] at hservice
    rw [isServiceFile_path_iff hname, List.dropLast_concat]
    exact suffix_of_moved (.inr rfl) hservices hfront (List.prefix_refl _) hservice

end

/-! ## Directories -/

section
variable {p : Profile} {m : Transfer} {fs : FileSystem} {k l : Location} {new : Bytes}

/-- What stands above a node of a tree is a directory of the tree. -/
theorem mem_directories_of_prefix (hfs : fs.WellFormed) (hnode : fs.node? l ≠ none)
    (hnested : ¬ (m.isNested ∧ m.destination <+: l)) (hk : k <+: l) (hkl : k ≠ l) (hsource : m.source <+: k)
    (hne : k ≠ m.source) : k ∈ m.directories fs :=
  (mem_directories_iff hfs).2
    ⟨hfs.isOpen hnode k hk hkl, hsource, hne, fun h => hnested ⟨h.1, h.2.trans hk⟩⟩

/-- A directory that keeps its name is there under the name it would have. -/
theorem append_directoryName_of_eq_none {root : Location} (hbelow : root <+: k) (hne : k ≠ root)
    (hname : ∀ q ∈ k, IsName q) (h : renameDirectory? p.table (relativeName root k) = none) :
    root ++ Bytes.splitOn Byte.slash (directoryName p.table root k) = k := by
  rw [directoryName, h, Option.getD_none, splitOn_relativeName hbelow hne hname]
  obtain ⟨r, rfl⟩ := hbelow
  rw [List.drop_left]

/-- A directory where a tree was migrated to is one of the tree that was kept, or was entered: none was
there before. -/
theorem mem_directories_or_isEntered (hfs : fs.WellFormed) (hclear : m.IsClear fs) (hbelow : m.destination <+: k)
    (hne : k ≠ m.destination) (h : fs.node? k = some .directory ∨ m.IsEntered p.table fs k) :
    (m.inPlace ∧ k ∈ m.directories fs) ∨ m.IsEntered p.table fs k := by
  refine h.imp_left fun hold => ?_
  rcases hclear with hin | hclear
  · have hsame : m.source = m.destination := eq_of_beq hin
    exact ⟨hin, (mem_directories_iff hfs).2 ⟨hold, hsame ▸ hbelow, hsame ▸ hne,
      by simp [Transfer.isNested, hin]⟩⟩
  · rw [hclear k hbelow hne] at hold
    cases hold

/-- **What a directory of a migrated tree would be called** is what one of the tree is called there. -/
theorem exists_directoryName_eq (hfs : fs.WellFormed)
    (hk : (m.inPlace ∧ k ∈ m.directories fs) ∨ m.IsEntered p.table fs k) (hbelow : m.destination <+: k)
    (hne : k ≠ m.destination)
    (hnew : renameDirectory? p.table (relativeName m.destination k) = some new) :
    ∃ l ∈ m.directories fs, directoryName p.table m.source l = new := by
  obtain ⟨front, rfl⟩ := hbelow
  have hfront : front ≠ [] := by
    rintro rfl
    exact hne (List.append_nil _)
  rcases hk with ⟨hin, hk⟩ | ⟨l, hl, hk⟩ | ⟨⟨l, content⟩, hf, hk, hkne⟩
  · refine ⟨_, hk, ?_⟩
    rw [directoryName, eq_of_beq hin, hnew, Option.getD_some]
  all_goals rw [relativeName_append] at hnew
  · obtain ⟨hnode, hsource, hlne, hnested⟩ := (mem_directories_iff hfs).1 hl
    obtain ⟨rest, hrest⟩ := (List.prefix_append_right_inj _).1 hk
    obtain ⟨j, hj, hjne, hjl, hname⟩ := exists_directoryName_of_directoryName hsource hlne
      (hfs.isName_of_node? hnode) hrest.symm hfront hnew
    by_cases he : j = l
    · exact ⟨l, hl, he ▸ hname⟩
    · exact ⟨j, mem_directories_of_prefix hfs (by simp [hnode]) hnested hjl he hj hjne, hname⟩
  · obtain ⟨hfile, hsource, hlne, hnested⟩ := (mem_files_iff hfs).1 hf
    obtain ⟨rest, hrest⟩ := (List.prefix_append_right_inj _).1 hk
    have hrestne : rest ≠ [] := by
      rintro rfl
      rw [List.append_nil] at hrest
      exact hkne (congrArg _ hrest)
    obtain ⟨j, hj, hjne, hjl, hjl', hname⟩ := exists_directoryName_of_fileName hsource hlne
      (hfs.isName_of_file? hfile) hrest.symm hfront hrestne hnew
    have hnode := file?_eq_some_iff.1 hfile
    exact ⟨j, mem_directories_of_prefix hfs (by simp [hnode]) hnested hjl hjl' hj hjne, hname⟩

end

/-! ## Migrated trees -/

section
variable {format : Container.Format} {p : Profile} {mode : BufferMode} {depth : Nat} {m : Transfer}
  {fs files : FileSystem} {plan : TreePlan}

/-- **A migrated tree is at rest.** -/
theorem isAtRest_of_applyAll_edits (hfs : fs.WellFormed) (hd : ∀ q ∈ m.destination, IsName q)
    (hplan : (planTree (⟨format, p.table, mode⟩ : Conversion depth) m fs).result = .ok plan)
    (happly : Edit.applyAll fs (plan.edits m.inPlace) = (files, none)) (hclear : m.IsClear fs)
    (hformat : ∀ f ∈ m.files fs, ArtifactKind.of f.1.path f.2 = .archive →
      format.Faithful (Archive.Writable format p.table f.2)) (hmarked : format.IsMarked)
    (hservices : ∀ parts, parts <+: ArtifactKind.serviceParts → parts <:+ m.destination →
      parts <:+ m.source)
    (hlegible : ∀ f ∈ m.files fs, ArtifactKind.of f.1.path f.2 = .manifest → Manifest.IsLegible f.2)
    (mode' : BufferMode) :
    IsAtRest (⟨format, p.table, mode'⟩ : Conversion depth) files m.destination := by
  obtain ⟨hdirectory, hdirectories, hfiles⟩ := directory_of_applyAll_edits hfs hd hplan happly
  have hmoved := isMoved_of_applyAll_edits hd hplan hfs happly
  obtain ⟨-, hlisted, hroom, -, hconverts⟩ := planTree_eq_ok_iff.1 hplan
  rw [unlisted?_eq_none_iff] at hlisted
  have hfiles' : files.WellFormed := by
    have hwell := (Edit.wellFormed_applyAll hfs (plan.edits m.inPlace)).1
    rwa [happly] at hwell
  refine ⟨hroom, fun k content hk hbelow hne => ?_, fun k hk hbelow hne => ?_⟩
  · obtain ⟨f, hf, rfl, rfl⟩ := hmoved.exists_of_file? hfs hclear hk hbelow hne
    refine ⟨(hfiles f hf).usable, ?_, ?_⟩
    · rw [renames, Transfer.filePlace, Transfer.placeOf, relativeName_append, Bytes.intercalate_splitOn,
        fileName, p.renameEntry?_getD, Option.isSome_none]
    · exact file_filePlace hfs hd (hformat f hf) hmarked hservices (hlegible f hf) hf (hconverts f hf)
        mode'
  · have horigin := mem_directories_or_isEntered (p := p) hfs hclear hbelow hne ((hdirectory k).1 hk)
    have husable : Path.isUsable k.path := by
      rcases horigin with ⟨-, hk⟩ | ⟨l, hl, hk⟩ | ⟨f, hf, hk, -⟩
      · exact hlisted k hk
      · have hproper := hdirectories l hl
        exact (hproper.of_prefix hk).usable
      · have hproper := hfiles f hf
        exact (hproper.of_prefix hk).usable
    refine ⟨husable, ?_⟩
    cases hnew : renameDirectory? p.table (relativeName m.destination k) with
    | none =>
      have hname := hfiles'.isName_of_node? hk
      rw [append_directoryName_of_eq_none hbelow hne hname hnew]
      have hlength := hfiles'.isName (l := k) (by simp [hk])
      exact isDirectory_path ⟨⟨fun q hq => (hlength q hq).2, husable⟩, hname⟩
        (hfiles'.isOpen (by simp [hk])) hk
    | some new =>
      obtain ⟨l, hl, hname⟩ := exists_directoryName_eq hfs horigin hbelow hne hnew
      have hthere : m.destination ++
          Bytes.splitOn Byte.slash (directoryName p.table m.destination k) = m.directoryPlace p.table l := by
        rw [directoryName, hnew, Option.getD_some, Transfer.directoryPlace, Transfer.placeOf, hname]
      rw [hthere]
      have hnode := (hdirectory _).2 (.inr (.inl ⟨l, hl, List.prefix_refl _⟩))
      exact isDirectory_path (hdirectories l hl) (hfiles'.isOpen (by simp [hnode])) hnode

end

/-- **A tree that was migrated stays as it is when it is migrated again in place.** It was migrated in
place itself, or to where nothing was; where it stands is no place of service registrations if it was
none before; and every line of its manifests has room for a colon. Names of files are texts
(`Location`). The answer of the second run is that something changed exactly if there is a directory
that would be called otherwise. -/
theorem migrateDirectory_idempotent {format : Container.Format} {p : Profile} {mode : BufferMode}
    {depth : Nat} {source destination : Bytes} {fs : FileSystem} {converted : Bool}
    (hfs : fs.WellFormed)
    (hformat : ∀ l content, fs.file? l = some content → fs.locationOf source <+: l →
      ArtifactKind.of l.path content = .archive →
        format.Faithful (Archive.Writable format p.table content)) (hmarked : format.IsMarked)
    (hplace : fs.locationOf source = fs.locationOf destination ∨ fs.HasReturns destination ∧
      ∀ k, fs.locationOf destination <+: k → k ≠ fs.locationOf destination → fs.node? k = none)
    (hservices : ∀ parts, parts <+: ArtifactKind.serviceParts → parts <:+ fs.locationOf destination →
      parts <:+ fs.locationOf source)
    (hlegible : ∀ l content, fs.file? l = some content → fs.locationOf source <+: l →
      ArtifactKind.of l.path content = .manifest → Manifest.IsLegible content)
    (h : (migrateDirectory (⟨format, p.table, mode⟩ : Conversion depth) source destination
      fs).run.result = .ok converted)
    (mode' : BufferMode) :
    let c : Conversion depth := ⟨format, p.table, mode⟩
    let c' : Conversion depth := ⟨format, p.table, mode'⟩
    let files := (migrateDirectory c source destination fs).files
    let again := migrateDirectory c' destination destination files
    ∃ changed, again.run.result = .ok changed ∧
      (changed ↔ ∃ l, files.node? l = some .directory ∧ fs.locationOf destination <+: l ∧
        l ≠ fs.locationOf destination ∧
          (renameDirectory? p.table (relativeName (fs.locationOf destination) l)).isSome) ∧
      again.files = files := by
  have hgrown := grown_makeDirectories fs destination
  obtain ⟨m, plan, htransfer, hplan, happly, hsource, hdestination, hthere, hnode⟩ :=
    exists_plan_of_migrateDirectory h
  dsimp only
  generalize (migrateDirectory (⟨format, p.table, mode⟩ : Conversion depth) source destination
    fs).files = files at happly ⊢
  rw [← hsource, ← hdestination] at hplace hservices
  rw [← hsource] at hformat hlegible
  rw [← hdestination]
  have hfs₁ := hgrown.wellFormed hfs
  have hd := hfs₁.isName_of_node? hnode
  have hclear : m.IsClear (fs.makeDirectories destination).1 := by
    rcases hplace with hsame | ⟨hreturns, hfree⟩
    · exact .inl (beq_iff_eq.2 hsame)
    · refine .inr fun k hk hne => ?_
      by_contra hnew
      have habove := (prefix_of_makeDirectoriesWithin hfs hreturns (hfree k hk hne) hnew).1
      rw [← hdestination] at habove
      exact hne (habove.eq_of_length (Nat.le_antisymm habove.length_le hk.length_le))
  have hfile : ∀ f ∈ m.files (fs.makeDirectories destination).1,
      fs.file? f.1 = some f.2 ∧ m.source <+: f.1 := by
    intro f hf
    obtain ⟨hfile, hl, -, -⟩ := (mem_files_iff hfs₁).1 hf
    exact ⟨hgrown.file? f.1 ▸ hfile, hl⟩
  have hrest := isAtRest_of_applyAll_edits hfs₁ hd hplan happly hclear
    (fun f hf => hformat f.1 f.2 (hfile f hf).1 (hfile f hf).2) hmarked hservices
    (fun f hf => hlegible f.1 f.2 (hfile f hf).1 (hfile f hf).2) mode'
  obtain ⟨hfiles, hhere⟩ := Edit.wellFormed_applyAll hfs₁ (plan.edits m.inPlace)
  rw [happly] at hfiles hhere
  have hdirectories : ∀ k, (fs.makeDirectories destination).1.node? k = some .directory →
      files.node? k = some .directory :=
    fun k hk => ((directory_of_applyAll_edits hfs₁ hd hplan happly).1 k).2 (.inl hk)
  exact hrest.migrateDirectory hfiles
    (isDirectory_mono hhere hdirectories hthere)
    (resolve?_mono hhere hdirectories (resolve?_of_transfer? htransfer).2 hnode)

/-- The ZIP format, completed behind a mark that begins like a container with entries. -/
noncomputable def markedZip : Container.Format :=
  Container.zip.completedBehind (Container.Zip.localSignature ++ [0xFF, 0xFF])

theorem faithful_markedZip (P : List Container.Entry → Prop) : markedZip.Faithful P :=
  Container.faithful_completedBehind _ _ _

theorem isMarked_markedZip : markedZip.IsMarked :=
  Container.isMarked_completedBehind (List.prefix_append _ _)

theorem migrateDirectory_packageTree_markedZip :
    let c : Conversion := ⟨markedZip, Profile.tomcat.table, .inMemory⟩
    let first := migrateDirectory c (bytes "s") (bytes "d") packageTree
    first.run.result = .ok true ∧
      first.files.file? [bytes "d", bytes "jakarta", bytes "el", bytes "A.txt"] =
        some (bytes "jakarta.el.B") ∧
      first.files.WellFormed ∧ ∀ n ∈ first.files.nodes, [bytes "d"] <+: n.1 →
        renameDirectory? Profile.tomcat.table (relativeName [bytes "d"] n.1) = none := by
  intro c first
  have hmade : packageTree.makeDirectories (bytes "d") =
      (packageTree.set [bytes "d"] .directory, true) := by
    decide +kernel
  have htransfer : transfer? (bytes "s") (bytes "d") (packageTree.set [bytes "d"] .directory) =
      .ok ⟨bytes "s", [bytes "s"], [bytes "d"]⟩ := by
    decide +kernel
  have hplan : (planTree (⟨markedZip, Profile.tomcat.table, .inMemory⟩ : Conversion)
      ⟨bytes "s", [bytes "s"], [bytes "d"]⟩ (packageTree.set [bytes "d"] .directory)).result =
      .ok ⟨[bytes "/d/javax", bytes "/d/jakarta/el"],
        [⟨bytes "/s/javax/el/A.txt", bytes "/d/jakarta/el/A.txt", true, some (bytes "jakarta.el.B")⟩],
        true⟩ := by
    unfold planTree Transfer.nodes
    rw [below_of_pairwise (by decide +kernel), Profile.table_eq_orderedTable]
    decide +kernel
  obtain ⟨hresult, hfiles⟩ := migrateDirectory_of_plan hmade htransfer hplan
  rw [hresult, hfiles, Profile.table_eq_orderedTable]
  decide +kernel

theorem migrateDirectory_idempotent_packageTree :
    let c : Conversion := ⟨markedZip, Profile.tomcat.table, .inMemory⟩
    let first := migrateDirectory c (bytes "s") (bytes "d") packageTree
    let c' : Conversion := ⟨markedZip, Profile.tomcat.table, .spooled⟩
    let again := migrateDirectory c' (bytes "d") (bytes "d") first.files
    packageTree.WellFormed ∧ first.run.result = .ok true ∧
      first.files.file? [bytes "d", bytes "jakarta", bytes "el", bytes "A.txt"] =
        some (bytes "jakarta.el.B") ∧
      again.run.result = .ok false ∧ again.files = first.files := by
  intro c first c' again
  obtain ⟨hfirst, hplaced, hwell, hnames⟩ := migrateDirectory_packageTree_markedZip
  have hfs : packageTree.WellFormed := by decide +kernel
  have hsource : packageTree.locationOf (bytes "s") = [bytes "s"] := by decide +kernel
  have hdestination : packageTree.locationOf (bytes "d") = [bytes "d"] := by decide +kernel
  have hfree : ∀ k, [bytes "d"] <+: k → k ≠ [bytes "d"] → packageTree.node? k = none :=
    fun k hk _ => hfs.node?_eq_none_of_prefix hk (by decide +kernel)
  have hservices : ∀ parts ∈ ArtifactKind.serviceParts.inits, parts <:+ [bytes "d"] →
      parts <:+ [bytes "s"] := by
    decide +kernel
  have hkinds : ∀ f ∈ filesOf packageTree.nodes, ArtifactKind.of f.1.path f.2 ≠ .manifest := by
    decide +kernel
  have hlegible : ∀ l content, packageTree.file? l = some content → [bytes "s"] <+: l →
      ArtifactKind.of l.path content = .manifest → Manifest.IsLegible content := by
    intro l content hfile hl hkind
    have hne := hl.ne_nil (List.cons_ne_nil _ _)
    have hmem := mem_filesOf.2 (hfs.mem_nodes_iff.2 ⟨hne, file?_eq_some_iff.1 hfile⟩)
    exact absurd hkind (hkinds (l, content) hmem)
  obtain ⟨changed, hchanged, hiff, hagain⟩ := migrateDirectory_idempotent hfs
    (fun _ _ _ _ _ => faithful_markedZip _) isMarked_markedZip
    (.inr ⟨hasReturns_of_notMem (by decide +kernel), hdestination ▸ hfree⟩)
    (by
      rw [hsource, hdestination]
      exact fun parts hp => hservices parts ((List.mem_inits _ _).2 hp))
    (hsource ▸ hlegible) hfirst .spooled
  have hsame : changed = false := by
    rw [Bool.eq_false_iff]
    intro htrue
    obtain ⟨l, hl, hbelow, -, hrenamed⟩ := hiff.1 htrue
    rw [hdestination] at hbelow hrenamed
    have hmem := hwell.mem_nodes_iff.2 ⟨hbelow.ne_nil (List.cons_ne_nil _ _), hl⟩
    rw [hnames (l, .directory) hmem hbelow] at hrenamed
    cases hrenamed
  exact ⟨hfs, hfirst, hplaced, hsame ▸ hchanged, hagain⟩

/-- A tree with an empty directory that moves. -/
def emptyTree : FileSystem where
  nodes := [([bytes "t"], .directory), ([bytes "t", bytes "javax.el"], .directory)]
  here := []

/-- In place the old directory stays beside the new one. -/
theorem migrateDirectory_emptyTree :
    let c : Conversion := ⟨Container.zip, Profile.tomcat.table, .inMemory⟩
    let moved := emptyTree.set [bytes "t", bytes "jakarta.el"] .directory
    ((migrateDirectory c (bytes "t") (bytes "t") emptyTree).run.result = .ok true ∧
      (migrateDirectory c (bytes "t") (bytes "t") emptyTree).files = moved) ∧
    (migrateDirectory c (bytes "t") (bytes "t") moved).run.result = .ok true := by
  intro c moved
  have hmade : ∀ fs ∈ [emptyTree, moved], fs.makeDirectories (bytes "t") = (fs, true) := by
    decide +kernel
  have htransfer : ∀ fs ∈ [emptyTree, moved], transfer? (bytes "t") (bytes "t") fs =
      .ok ⟨bytes "t", [bytes "t"], [bytes "t"]⟩ := by
    decide +kernel
  have hplan : (planTree (⟨Container.zip, Profile.tomcat.table, .inMemory⟩ : Conversion)
      ⟨bytes "t", [bytes "t"], [bytes "t"]⟩ emptyTree).result =
      .ok ⟨[bytes "/t/jakarta.el"], [], true⟩ := by
    unfold planTree Transfer.nodes
    rw [below_of_pairwise (by decide +kernel), Profile.table_eq_orderedTable]
    decide +kernel
  have hplan' : (planTree (⟨Container.zip, Profile.tomcat.table, .inMemory⟩ : Conversion)
      ⟨bytes "t", [bytes "t"], [bytes "t"]⟩ moved).result =
      .ok ⟨[bytes "/t/jakarta.el", bytes "/t/jakarta.el"], [], true⟩ := by
    unfold planTree Transfer.nodes
    rw [below_of_pairwise (by decide +kernel), Profile.table_eq_orderedTable]
    decide +kernel
  obtain ⟨hresult, hfiles⟩ :=
    migrateDirectory_of_plan (hmade emptyTree (by simp)) (htransfer emptyTree (by simp)) hplan
  obtain ⟨hresult', -⟩ :=
    migrateDirectory_of_plan (hmade moved (by simp)) (htransfer moved (by simp)) hplan'
  rw [hresult, hfiles, hresult']
  decide +kernel

/-- A tree with a file of no kind. -/
def unnamedTree : FileSystem where
  nodes := [([bytes "s"], .directory), ([bytes "s", bytes "x"], .file (bytes "javax.el.A"))]
  here := []

/-- A file that was copied to the directory of service registrations is one. -/
theorem migrateDirectory_unnamedTree :
    let c : Conversion := ⟨Container.zip, Profile.tomcat.table, .inMemory⟩
    let services := bytes "META-INF/services"
    let made := (unnamedTree.set [bytes "META-INF"] .directory).set ArtifactKind.serviceParts .directory
    let copied := made.set (ArtifactKind.serviceParts ++ [bytes "x"]) (.file (bytes "javax.el.A"))
    ((migrateDirectory c (bytes "s") services unnamedTree).run.result = .ok false ∧
      (migrateDirectory c (bytes "s") services unnamedTree).files = copied) ∧
    (migrateDirectory c services services copied).run.result = .ok true ∧
      (migrateDirectory c services services copied).files =
        made.set (ArtifactKind.serviceParts ++ [bytes "x"]) (.file (bytes "jakarta.el.A")) := by
  intro c services made copied
  have hmade : unnamedTree.makeDirectories services = (made, true) := by decide +kernel
  have hmade' : copied.makeDirectories services = (copied, true) := by decide +kernel
  have htransfer : transfer? (bytes "s") services made =
      .ok ⟨bytes "s", [bytes "s"], ArtifactKind.serviceParts⟩ := by
    decide +kernel
  have htransfer' : transfer? services services copied =
      .ok ⟨services, ArtifactKind.serviceParts, ArtifactKind.serviceParts⟩ := by
    decide +kernel
  have hplan : (planTree (⟨Container.zip, Profile.tomcat.table, .inMemory⟩ : Conversion)
      ⟨bytes "s", [bytes "s"], ArtifactKind.serviceParts⟩ made).result =
      .ok ⟨[], [⟨bytes "/s/x", bytes "/META-INF/services/x", false, some (bytes "javax.el.A")⟩],
        false⟩ := by
    unfold planTree Transfer.nodes
    rw [below_of_pairwise (by decide +kernel), Profile.table_eq_orderedTable]
    decide +kernel
  have hplan' : (planTree (⟨Container.zip, Profile.tomcat.table, .inMemory⟩ : Conversion)
      ⟨services, ArtifactKind.serviceParts, ArtifactKind.serviceParts⟩ copied).result =
      .ok ⟨[], [⟨bytes "/META-INF/services/x", bytes "/META-INF/services/x", false,
        some (bytes "jakarta.el.A")⟩], true⟩ := by
    unfold planTree Transfer.nodes
    rw [below_of_pairwise (by decide +kernel), Profile.table_eq_orderedTable]
    decide +kernel
  obtain ⟨hresult, hfiles⟩ := migrateDirectory_of_plan hmade htransfer hplan
  obtain ⟨hresult', hfiles'⟩ := migrateDirectory_of_plan hmade' htransfer' hplan'
  rw [hresult, hfiles, hresult', hfiles']
  decide +kernel

/-- A second run in place says that something changed where an empty directory has stayed behind, and it
changes a file that the first one took to where it is one of service registrations. -/
theorem migrateDirectory_not_idempotent :
    let c : Conversion := ⟨Container.zip, Profile.tomcat.table, .inMemory⟩
    let services := bytes "META-INF/services"
    let inPlace := migrateDirectory c (bytes "t") (bytes "t") emptyTree
    let fresh := migrateDirectory c (bytes "s") services unnamedTree
    inPlace.run.result = .ok true ∧
      (migrateDirectory c (bytes "t") (bytes "t") inPlace.files).run.result = .ok true ∧
    unnamedTree.node? (unnamedTree.locationOf services) = none ∧ fresh.run.result = .ok false ∧
      (migrateDirectory c services services fresh.files).run.result = .ok true ∧
      fresh.files.file? (ArtifactKind.serviceParts ++ [bytes "x"]) = some (bytes "javax.el.A") ∧
      (migrateDirectory c services services fresh.files).files.file?
        (ArtifactKind.serviceParts ++ [bytes "x"]) = some (bytes "jakarta.el.A") := by
  intro c services inPlace fresh
  obtain ⟨⟨hin, hmoved⟩, hagain⟩ := migrateDirectory_emptyTree
  obtain ⟨⟨hout, hcopied⟩, hagain', hfiles⟩ := migrateDirectory_unnamedTree
  refine ⟨hin, ?_, by decide +kernel, hout, ?_, ?_, ?_⟩
  · rwa [show inPlace.files = _ from hmoved]
  · rwa [show fresh.files = _ from hcopied]
  · rw [show fresh.files = _ from hcopied]
    decide +kernel
  · rw [show fresh.files = _ from hcopied, hfiles]
    decide +kernel

end PackageMigration.Migration
