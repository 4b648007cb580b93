import PackageMigration.Proofs.FileSystem.Path
import PackageMigration.Proofs.FileSystem.Tree
/-
  Directories that are made by any path, and how they are removed again.

  * `HasReturns`: every `..` of a path follows a directory.

  Main statements: `isDirectory_iff_of_hasReturns`, `prefix_of_makeDirectoriesWithin` and
  `exists_follow_of_makeDirectoriesWithin` (what is new), `not_isDirectory_removeDirectory` (a directory
  that was made goes again).
-/
namespace PackageMigration

open PackageMigration.Path (IsName)

namespace FileSystem

variable {fs fs' : FileSystem} {path : Bytes}

/-! ## Where paths lead -/

theorem follow_filter (l : Location) (parts : List Bytes) :
    follow l (parts.filter fun p => !Path.isIdle p) = follow l parts := by
  induction parts generalizing l with
  | nil => rfl
  | cons p parts ih =>
    have hcons : ∀ ps, follow l (p :: ps) = follow (step l p) ps := fun _ => rfl
    by_cases hp : Path.isIdle p
    · rw [List.filter_cons_of_neg (by simp [hp]), ih, hcons, step, if_pos hp]
    · rw [List.filter_cons_of_pos (by simp [hp]), hcons, hcons, ih]

theorem locationOf_eq_follow_names (fs : FileSystem) (path : Bytes) :
    fs.locationOf path = follow (fs.start path) (Path.names path) :=
  (follow_filter _ _).symm

/-- Every `..` of a path follows a directory. -/
def HasReturns (fs : FileSystem) (path : Bytes) : Prop :=
  ∀ front rest, Path.names path = front ++ Path.above :: rest →
    fs.node? (follow (fs.start path) front) = some .directory

theorem WellFormed.node?_start (hfs : fs.WellFormed) (path : Bytes) :
    fs.node? (fs.start path) = some .directory := by
  unfold start
  split
  · rfl
  · exact hfs.here

theorem WellFormed.node?_ne_none_of_prefix (hfs : fs.WellFormed) {k l : Location} (hk : k <+: l)
    (hl : fs.node? l ≠ none) : fs.node? k ≠ none := by
  by_cases he : k = l
  · rwa [he]
  · rw [hfs.isOpen hl k hk he]
    nofun

theorem WellFormed.node?_eq_none_of_prefix (hfs : fs.WellFormed) {k l : Location} (hk : k <+: l)
    (hnone : fs.node? k = none) : fs.node? l = none := by
  by_contra hl
  exact hfs.node?_ne_none_of_prefix hk hl hnone

/-- A path that leads to a directory passes through directories only, if it may go back. -/
theorem WellFormed.node?_follow (hfs : fs.WellFormed) {l : Location} {parts : List Bytes}
    (hreturn : ∀ front rest, parts = front ++ Path.above :: rest →
      fs.node? (follow l front) = some .directory)
    (h : fs.node? (follow l parts) = some .directory) {front : List Bytes} (hfront : front <+: parts) :
    fs.node? (follow l front) = some .directory := by
  induction parts using List.reverseRecOn with
  | nil => rwa [List.prefix_nil.1 hfront]
  | append_singleton parts p ih =>
    rcases List.prefix_concat_iff.1 hfront with rfl | hfront
    · exact h
    · refine ih (fun front rest hparts => hreturn front (rest ++ [p]) (by simp [hparts])) ?_ hfront
      by_cases habove : p = Path.above
      · exact hreturn parts [] (by rw [habove])
      · have hlast : follow l (parts ++ [p]) = step (follow l parts) p := follow_append l parts [p]
        rw [hlast, step, if_neg habove] at h
        split at h
        · exact h
        · have hdir := hfs.node?_dropLast (l := follow l parts ++ [p]) (by simp [h])
          rwa [List.dropLast_concat] at hdir

theorem HasReturns.splitOn (hr : fs.HasReturns path) {front rest : List Bytes}
    (h : Bytes.splitOn Byte.slash path = front ++ Path.above :: rest) :
    fs.node? (follow (fs.start path) front) = some .directory := by
  rw [← follow_filter]
  refine hr _ (rest.filter fun p => !Path.isIdle p) ?_
  rw [Path.names, h, List.filter_append, List.filter_cons_of_pos (by decide)]

/-- A path that may go back leads to a directory if there is one at its location. -/
theorem isDirectory_iff_of_hasReturns (hfs : fs.WellFormed) (hr : fs.HasReturns path) :
    fs.isDirectory path ↔
      Path.isUsable path ∧ path ≠ [] ∧ fs.node? (fs.locationOf path) = some .directory := by
  rw [isDirectory_iff]
  refine and_congr_right fun _ => and_congr_right fun _ => ⟨?_, fun hnode => ?_⟩
  · rintro ⟨l, hwalk, hnode⟩
    rwa [← eq_locationOf_of_walk? hwalk]
  · have hall : ∀ front, front <+: Bytes.splitOn Byte.slash path →
        fs.node? (follow (fs.start path) front) = some .directory :=
      fun front hfront => hfs.node?_follow (fun _ _ => hr.splitOn) hnode hfront
    refine ⟨_, walk?_eq_ok_iff.2 ⟨rfl, fun front part rest hparts => ⟨hall front ⟨_, hparts.symm⟩, ?_⟩⟩,
      hnode⟩
    have hpart := hall (front ++ [part]) ⟨rest, by simp [hparts]⟩
    have hlast : follow (fs.start path) (front ++ [part]) = step (follow (fs.start path) front) part :=
      follow_append _ front [part]
    rw [hlast, step] at hpart
    split at hpart
    next hidle => exact Path.length_le_of_isIdle hidle
    split at hpart
    next habove => rw [habove]; decide
    next =>
      have hthere : fs.node? (follow (fs.start path) front ++ [part]) ≠ none := by simp [hpart]
      exact (hfs.isName hthere part (by simp)).2

/-! ## Directories that are made -/

theorem Grown.site? (h : Grown fs fs') {l : Location} (hsite : fs.site? path = .ok l) :
    fs'.site? path = .ok l := by
  obtain ⟨hu, front, last, rest, k, hsplit, hrest, hname, hlength, hwalk, hnode, hl⟩ :=
    site?_eq_ok_iff.1 hsite
  obtain ⟨hk, hall⟩ := walk?_eq_ok_iff.1 hwalk
  have hstart : fs'.start path = fs.start path := by rw [start, start, h.here]
  refine site?_eq_ok_iff.2 ⟨hu, front, last, rest, k, hsplit, hrest, hname, hlength, ?_,
    h.directory hnode, hl⟩
  rw [hstart]
  exact walk?_eq_ok_iff.2 ⟨hk, fun front part rest hparts =>
    ⟨h.directory (hall front part rest hparts).1, (hall front part rest hparts).2⟩⟩

theorem HasReturns.parent (hr : fs.HasReturns path) {parent : Bytes}
    (h : Path.parent? path = some parent) : fs.HasReturns parent := by
  obtain ⟨hnames, hhead⟩ := Path.names_parent? h
  intro front rest hparts
  have hstart : fs.start parent = fs.start path := by simp only [start, hhead]
  rw [hstart]
  rw [hnames] at hparts
  rcases List.eq_nil_or_concat' (Path.names path) with hnil | ⟨parts, p, hconcat⟩
  · rw [hnil] at hparts
    simp at hparts
  · rw [hconcat, List.dropLast_concat] at hparts
    exact hr front (rest ++ [p]) (by simp [hconcat, hparts])

theorem eq_locationOf_of_makeDirectory? (h : fs.makeDirectory? path = .ok fs') {k : Location}
    (hold : fs.node? k = none) (hnew : fs'.node? k ≠ none) : k = fs.locationOf path := by
  obtain ⟨l, hsite, -, rfl⟩ := makeDirectory?_eq_ok_iff.1 h
  rw [← eq_locationOf_of_site? hsite]
  by_contra hk
  rw [node?_set _ (ne_nil_of_site? hsite), if_neg hk] at hnew
  exact hnew hold

/-- Above the location of the parent nothing is missing that is not above the path's. -/
theorem prefix_of_parent? (hfs : fs.WellFormed) (hr : fs.HasReturns path) {parent : Bytes}
    (h : Path.parent? path = some parent) {k : Location} (hold : fs.node? k = none)
    (hk : k <+: fs.locationOf parent) : k <+: fs.locationOf path ∧ k ≠ fs.locationOf path := by
  obtain ⟨hnames, hhead⟩ := Path.names_parent? h
  have hstart : fs.start parent = fs.start path := by simp only [start, hhead]
  rw [locationOf_eq_follow_names, hnames, hstart] at hk
  rw [locationOf_eq_follow_names]
  have hthere : ∀ {l : Location}, fs.node? l = some .directory → ¬ k <+: l := by
    intro l hl hkl
    exact hfs.node?_ne_none_of_prefix hkl (by simp [hl]) hold
  rcases List.eq_nil_or_concat' (Path.names path) with hnil | ⟨parts, p, hconcat⟩
  · rw [hnil] at hk
    exact absurd hk (hthere (hfs.node?_start path))
  · rw [hconcat, List.dropLast_concat] at hk
    by_cases habove : p = Path.above
    · exact absurd hk (hthere (hr parts [] (by rw [hconcat, habove])))
    · have hidle : Path.isIdle p = false := by
        have hmem : p ∈ Path.names path := by simp [hconcat]
        simpa using (List.mem_filter.1 hmem).2
      have hlast : follow (fs.start path) (parts ++ [p]) = follow (fs.start path) parts ++ [p] := by
        have hstep : follow (fs.start path) (parts ++ [p]) = step (follow (fs.start path) parts) p :=
          follow_append _ parts [p]
        rw [hstep, step, if_neg (by simp [hidle]), if_neg habove]
      rw [hconcat, hlast]
      exact ⟨hk.trans (List.prefix_append _ _), prefix_ne_concat hk p⟩

/-- What is new after a directory was made leads to it. If it is the directory itself, then it was
made as the last one. -/
theorem prefix_of_makeDirectoriesWithin {fuel : Nat} (hfs : fs.WellFormed) (hr : fs.HasReturns path)
    {k : Location} (hold : fs.node? k = none)
    (hnew : (makeDirectoriesWithin fuel path fs).1.node? k ≠ none) :
    k <+: fs.locationOf path ∧ (k = fs.locationOf path →
      (makeDirectoriesWithin fuel path fs).2 = true ∧
        ∃ fs₁ : FileSystem, fs₁.makeDirectory? path = .ok (makeDirectoriesWithin fuel path fs).1) := by
  induction fuel generalizing path with
  | zero => exact absurd hold hnew
  | succ fuel ih =>
    rcases makeDirectoriesWithin_cases fuel path fs with ⟨h, -⟩ | ⟨h, htrue⟩ | ⟨parent, hparent, h⟩
    · rw [h] at hnew
      exact absurd hold hnew
    · have he := eq_locationOf_of_makeDirectory? h hold hnew
      exact ⟨he ▸ List.prefix_refl _, fun _ => ⟨htrue, fs, h⟩⟩
    · have hgrown := grown_makeDirectoriesWithin fuel parent fs
      have habove : (makeDirectoriesWithin fuel parent fs).1.node? k ≠ none →
          k <+: fs.locationOf path ∧ k ≠ fs.locationOf path :=
        fun hk => prefix_of_parent? hfs hr hparent hold (ih (hr.parent hparent) hk).1
      rcases h with h | h
      · rw [h] at hnew ⊢
        obtain ⟨hk, hne⟩ := habove hnew
        exact ⟨hk, fun he => absurd he hne⟩
      · rw [h] at hnew ⊢
        by_cases hk : (makeDirectoriesWithin fuel parent fs).1.node? k = none
        · rcases ensureDirectory_cases (makeDirectoriesWithin fuel parent fs).1 path with
            ⟨hlast, htrue⟩ | hlast
          · have he := eq_locationOf_of_makeDirectory? hlast hk hnew
            rw [locationOf_congr hgrown.here] at he
            exact ⟨he ▸ List.prefix_refl _, fun _ => ⟨htrue, _, hlast⟩⟩
          · rw [hlast] at hnew
            exact absurd hk hnew
        · obtain ⟨hk, hne⟩ := habove hk
          exact ⟨hk, fun he => absurd he hne⟩

theorem names_ne_nil_of_site? {l : Location} (h : fs.site? path = .ok l) : Path.names path ≠ [] := by
  obtain ⟨-, front, last, rest, -, hsplit, -, hname, -⟩ := site?_eq_ok_iff.1 h
  refine List.ne_nil_of_mem (a := last) (List.mem_filter.2 ⟨?_, by simp [hname.isIdle]⟩)
  simp [hsplit]

/-- **What is new after directories were made is on the way.** The path may go back at will. -/
theorem exists_follow_of_makeDirectoriesWithin {fuel : Nat} {k : Location} (hold : fs.node? k = none)
    (hnew : (makeDirectoriesWithin fuel path fs).1.node? k ≠ none) :
    ∃ front, front ≠ [] ∧ front <+: Path.names path ∧ k = follow (fs.start path) front := by
  induction fuel generalizing path with
  | zero => exact absurd hold hnew
  | succ fuel ih =>
    have hlast : ∀ {fs₁ fs₂ : FileSystem}, Grown fs fs₁ → fs₁.makeDirectory? path = .ok fs₂ →
        fs₁.node? k = none → fs₂.node? k ≠ none →
        ∃ front, front ≠ [] ∧ front <+: Path.names path ∧ k = follow (fs.start path) front := by
      intro fs₁ fs₂ hgrown hmade hold hnew
      obtain ⟨l, hsite, -⟩ := makeDirectory?_eq_ok_iff.1 hmade
      refine ⟨_, names_ne_nil_of_site? hsite, List.prefix_refl _, ?_⟩
      rw [eq_locationOf_of_makeDirectory? hmade hold hnew, locationOf_congr hgrown.here,
        locationOf_eq_follow_names]
    have habove : ∀ {parent}, Path.parent? path = some parent →
        (makeDirectoriesWithin fuel parent fs).1.node? k ≠ none →
        ∃ front, front ≠ [] ∧ front <+: Path.names path ∧ k = follow (fs.start path) front := by
      intro parent hparent hnew
      obtain ⟨hnames, hhead⟩ := Path.names_parent? hparent
      obtain ⟨front, hne, hfront, rfl⟩ := ih hnew
      refine ⟨front, hne, (hnames ▸ hfront).trans (List.dropLast_prefix _), ?_⟩
      simp only [start, hhead]
    rcases makeDirectoriesWithin_cases fuel path fs with ⟨h, -⟩ | ⟨h, -⟩ | ⟨parent, hparent, h | h⟩
    · exact absurd hold (h ▸ hnew)
    · exact hlast .refl h hold hnew
    · rw [h] at hnew
      exact habove hparent hnew
    · by_cases hk : (makeDirectoriesWithin fuel parent fs).1.node? k = none
      · rw [h] at hnew
        rcases ensureDirectory_cases (makeDirectoriesWithin fuel parent fs).1 path with ⟨hmade, -⟩ | hsame
        · exact hlast (grown_makeDirectoriesWithin fuel parent fs) hmade hk hnew
        · rw [hsame] at hnew
          exact absurd hk hnew
      · exact habove hparent hk

theorem node?_of_find? {n : Node} (h : fs.find? path = some n) :
    fs.node? (fs.locationOf path) = some n := by
  obtain ⟨l, hl, hn⟩ := Option.bind_eq_some_iff.1 h
  rw [locate?, Option.ite_none_right_eq_some, reach?_eq_some_iff] at hl
  rwa [← eq_locationOf_of_walk? hl.2.2.1]

theorem node?_of_isDirectory (h : fs.isDirectory path) :
    fs.node? (fs.locationOf path) = some .directory :=
  node?_of_find? (eq_of_beq h)

theorem isDirectory_of_makeDirectory? (h : fs.makeDirectory? path = .ok fs') : fs'.isDirectory path := by
  obtain ⟨l, hsite, -, hset⟩ := makeDirectory?_eq_ok_iff.1 h
  refine isDirectory_of_site? ((Grown.made .refl h).site? hsite) ?_
  rw [hset, node?_set _ (ne_nil_of_site? hsite), if_pos rfl]

/-- A directory that was made is there. -/
theorem isDirectory_of_makeDirectories (hpath : path ≠ []) (h : (fs.makeDirectories path).2 = true) :
    (fs.makeDirectories path).1.isDirectory path := by
  unfold makeDirectories at h ⊢
  rcases makeDirectoriesWithin_cases path.length path fs with
    ⟨hsame, hthere⟩ | ⟨hmade, -⟩ | ⟨parent, -, hfalse | hensured⟩
  · rw [hsame]
    exact (hthere h).resolve_left hpath
  · exact isDirectory_of_makeDirectory? hmade
  · rw [hfalse] at h
    cases h
  · rw [hensured] at h ⊢
    rcases ensureDirectory_cases (makeDirectoriesWithin path.length parent fs).1 path with
      ⟨hmade, -⟩ | hsame
    · exact isDirectory_of_makeDirectory? hmade
    · rw [hsame] at h ⊢
      exact h

theorem node?_of_makeDirectories (hpath : path ≠ []) (h : (fs.makeDirectories path).2 = true) :
    (fs.makeDirectories path).1.node? (fs.locationOf path) = some .directory := by
  have hnode := node?_of_isDirectory (isDirectory_of_makeDirectories hpath h)
  rwa [locationOf_congr (grown_makeDirectories fs path).here] at hnode

/-- A directory that was not there is the last one that was made for it. -/
theorem of_isDirectory_makeDirectories (hfs : fs.WellFormed) (hr : fs.HasReturns path)
    (hnot : ¬ fs.isDirectory path) (h : (fs.makeDirectories path).1.isDirectory path) :
    fs.node? (fs.locationOf path) = none ∧ (fs.makeDirectories path).2 = true ∧
      ∃ fs₁ : FileSystem, fs₁.makeDirectory? path = .ok (fs.makeDirectories path).1 := by
  have hgrown := grown_makeDirectories fs path
  obtain ⟨hu, hpath, -⟩ := isDirectory_iff.1 h
  have hnode := node?_of_isDirectory h
  rw [locationOf_congr hgrown.here] at hnode
  have hold : fs.node? (fs.locationOf path) = none := by
    rcases hgrown.node? (fs.locationOf path) with he | ⟨hold, -⟩
    · rw [he] at hnode
      exact absurd ((isDirectory_iff_of_hasReturns hfs hr).2 ⟨hu, hpath, hnode⟩) hnot
    · exact hold
  obtain ⟨-, hlast⟩ := prefix_of_makeDirectoriesWithin hfs hr hold (by
    change (fs.makeDirectories path).1.node? (fs.locationOf path) ≠ none
    rw [hnode]
    nofun)
  exact ⟨hold, hlast rfl⟩

/-- **A directory that was not there is not there either after it was made and removed.** -/
theorem not_isDirectory_removeDirectory (hfs : fs.WellFormed) (hr : fs.HasReturns path)
    (hnot : ¬ fs.isDirectory path) :
    ¬ ((fs.makeDirectories path).1.removeDirectory path).isDirectory path := by
  have hgrown := grown_makeDirectories fs path
  generalize hfs' : (fs.makeDirectories path).1 = fs' at hgrown
  have hmade : fs'.isDirectory path → fs.node? (fs.locationOf path) = none ∧
      fs'.site? path = .ok (fs.locationOf path) ∧
        fs'.node? (fs.locationOf path) = some .directory := by
    intro h
    have hlocation : fs'.locationOf path = fs.locationOf path := locationOf_congr hgrown.here path
    obtain ⟨hold, -, fs₁, hlast⟩ := of_isDirectory_makeDirectories hfs hr hnot (hfs' ▸ h)
    rw [hfs'] at hlast
    obtain ⟨l, hsite, -, -⟩ := makeDirectory?_eq_ok_iff.1 hlast
    have hsite' := (Grown.made .refl hlast).site? hsite
    obtain rfl : l = fs.locationOf path := by rw [eq_locationOf_of_site? hsite', hlocation]
    exact ⟨hold, hsite', hlocation ▸ node?_of_isDirectory h⟩
  have hempty : fs.node? (fs.locationOf path) = none → fs'.below (fs.locationOf path) = [] := by
    intro hold
    by_contra hbelow
    obtain ⟨⟨k, n⟩, hk⟩ := List.exists_mem_of_ne_nil _ hbelow
    obtain ⟨hn, hprefix, hne⟩ := (hgrown.wellFormed hfs).mem_below_iff.1 hk
    have hk : fs.node? k = none := by
      by_contra hk
      exact hfs.node?_ne_none_of_prefix hprefix hk hold
    have hk' := (prefix_of_makeDirectoriesWithin hfs hr hk (by
      change (fs.makeDirectories path).1.node? k ≠ none
      rw [hfs', hn]
      nofun)).1
    exact hne (hk'.eq_of_length (Nat.le_antisymm hk'.length_le hprefix.length_le))
  intro h
  unfold removeDirectory at h
  split at h
  next hsite =>
    rw [(hmade h).2.1] at hsite
    cases hsite
  next l hsite =>
    split at h
    next hremoved =>
      have hnode := node?_of_isDirectory h
      rw [show (fs'.erase l).locationOf path = fs'.locationOf path from locationOf_congr rfl path,
        ← eq_locationOf_of_site? hsite, node?_erase _ (ne_nil_of_site? hsite), if_pos rfl] at hnode
      cases hnode
    next hkept =>
      obtain ⟨hold, hsite', hnode⟩ := hmade h
      obtain rfl := Except.ok.inj (hsite.symm.trans hsite')
      exact hkept ⟨hnode, hempty hold⟩

theorem file?_removeDirectory (fs : FileSystem) (path : Bytes) (k : Location) :
    (fs.removeDirectory path).file? k = fs.file? k := by
  unfold removeDirectory
  split
  · rfl
  next l hsite =>
    split
    next hremoved =>
      unfold file?
      rw [node?_erase _ (ne_nil_of_site? hsite)]
      by_cases hk : k = l
      · rw [if_pos hk, hk, hremoved.1]
      · rw [if_neg hk]
    · rfl

end FileSystem

end PackageMigration
