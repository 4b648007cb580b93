import PackageMigration.FileSystem.Edit
import PackageMigration.Proofs.FileSystem.Walk
import PackageMigration.Proofs.Lookup
/-
  File systems as trees, and how directories are added to them.

  * `file?`: the content of a file.
  * `WellFormed`: every node stands in a directory.
  * `Grown`: a file system with more directories.

  Main statements: `WellFormed.mem_below_iff`, `Grown.node?` (what grows), `Grown.wellFormed`,
  `makeDirectories_of_isDirectory` (a directory that is there stays), `makeDirectories_path` (a directory
  and those above it are there afterwards).
-/
namespace PackageMigration.FileSystem

open PackageMigration.Path (IsName)

/-- The content of the file at a location. -/
def file? (fs : FileSystem) (l : Location) : Option Bytes :=
  match fs.node? l with
  | some (.file content) => some content
  | _ => none

theorem file?_eq_some_iff {fs : FileSystem} {l : Location} {content : Bytes} :
    fs.file? l = some content ↔ fs.node? l = some (.file content) := by
  unfold file?
  split
  next c h => simp [h]
  next h => exact iff_of_false nofun fun hn => h content hn

theorem file?_congr {fs fs' : FileSystem} {l : Location} (h : fs'.node? l = fs.node? l) :
    fs'.file? l = fs.file? l := by
  rw [file?, file?, h]

theorem file?_eq_none_of_directory {fs : FileSystem} {l : Location}
    (h : fs.node? l = some .directory) : fs.file? l = none := by
  rw [file?, h]

/-! ## Trees -/

/-- Every node stands in a directory, under a name, and no two at one location; and there is a
working directory. That names are texts is not asked: no proof needs it, and what is proved is about
runs over file systems where it is so (`Location`). -/
structure WellFormed (fs : FileSystem) : Prop where
  distinct : (fs.nodes.map Prod.fst).Nodup
  named : ∀ n ∈ fs.nodes, ∀ p ∈ n.1, IsName p ∧ p.length ≤ Path.longestPart
  standing : ∀ n ∈ fs.nodes, n.1 ≠ [] ∧ fs.node? n.1.dropLast = some .directory
  here : fs.node? fs.here = some .directory

instance (fs : FileSystem) : Decidable fs.WellFormed :=
  decidable_of_iff ((fs.nodes.map Prod.fst).Nodup ∧
    (∀ n ∈ fs.nodes, ∀ p ∈ n.1, IsName p ∧ p.length ≤ Path.longestPart) ∧
    (∀ n ∈ fs.nodes, n.1 ≠ [] ∧ fs.node? n.1.dropLast = some .directory) ∧
    fs.node? fs.here = some .directory)
    ⟨fun h => ⟨h.1, h.2.1, h.2.2.1, h.2.2.2⟩, fun h => ⟨h.distinct, h.named, h.standing, h.here⟩⟩

section
variable {fs : FileSystem} {l : Location} {n : Node}

theorem WellFormed.mem_nodes_iff (h : fs.WellFormed) :
    (l, n) ∈ fs.nodes ↔ l ≠ [] ∧ fs.node? l = some n := by
  rw [← lookup_eq_some_iff h.distinct, node?]
  by_cases hl : l = []
  · subst hl
    simp only [ne_eq, not_true_eq_false, false_and, iff_false]
    intro hlookup
    exact (h.standing _ ((lookup_eq_some_iff h.distinct).1 hlookup)).1 rfl
  · simp [hl]

theorem WellFormed.isName (h : fs.WellFormed) (hn : fs.node? l ≠ none) :
    ∀ p ∈ l, IsName p ∧ p.length ≤ Path.longestPart := by
  by_cases hl : l = []
  · simp [hl]
  · obtain ⟨n, hn⟩ := Option.ne_none_iff_exists'.1 hn
    exact h.named (l, n) (h.mem_nodes_iff.2 ⟨hl, hn⟩)

theorem WellFormed.isName_of_node? (h : fs.WellFormed) (hn : fs.node? l = some n) :
    ∀ p ∈ l, IsName p :=
  fun p hp => (h.isName (by rw [hn]; nofun) p hp).1

theorem WellFormed.isName_of_file? {content : Bytes} (h : fs.WellFormed)
    (hfile : fs.file? l = some content) : ∀ p ∈ l, IsName p :=
  h.isName_of_node? (file?_eq_some_iff.1 hfile)

theorem WellFormed.node?_dropLast (h : fs.WellFormed) (hn : fs.node? l ≠ none) :
    fs.node? l.dropLast = some .directory := by
  by_cases hl : l = []
  · subst hl
    rfl
  · obtain ⟨n, hn⟩ := Option.ne_none_iff_exists'.1 hn
    exact (h.standing (l, n) (h.mem_nodes_iff.2 ⟨hl, hn⟩)).2

/-- Above a node are directories only. -/
theorem WellFormed.isOpen (h : fs.WellFormed) (hn : fs.node? l ≠ none) : fs.IsOpen l := by
  induction l using List.reverseRecOn with
  | nil =>
    intro k hk hne
    exact absurd (List.prefix_nil.1 hk) hne
  | append_singleton l p ih =>
    have hl : fs.node? l = some .directory := by
      have := h.node?_dropLast hn
      rwa [List.dropLast_concat] at this
    exact isOpen_concat_iff.2 ⟨ih (by simp [hl]), hl⟩

/-- What is below a location. -/
theorem WellFormed.mem_below_iff (h : fs.WellFormed) {root : Location} :
    (l, n) ∈ fs.below root ↔ fs.node? l = some n ∧ root <+: l ∧ l ≠ root := by
  rw [below, List.mem_mergeSort, List.mem_filter, h.mem_nodes_iff]
  simp only [Bool.and_eq_true, List.isPrefixOf_iff_prefix, bne_iff_ne, ne_eq]
  refine ⟨fun ⟨⟨_, hn⟩, hp⟩ => ⟨hn, hp⟩, fun ⟨hn, hp, hne⟩ => ⟨⟨?_, hn⟩, hp, hne⟩⟩
  rintro rfl
  exact hne (List.prefix_nil.1 hp).symm

theorem below_of_pairwise {fs : FileSystem} {root : Location}
    (h : (fs.nodes.filter fun m => root.isPrefixOf m.1 && m.1 != root).Pairwise fun a b =>
      (compare a.1 b.1).isLE) :
    fs.below root = fs.nodes.filter fun m => root.isPrefixOf m.1 && m.1 != root :=
  List.mergeSort_of_pairwise h

theorem WellFormed.nodup_below (h : fs.WellFormed) (root : Location) :
    ((fs.below root).map Prod.fst).Nodup := by
  have hperm := (List.mergeSort_perm
    (fs.nodes.filter fun m => root.isPrefixOf m.1 && m.1 != root)
    fun a b => (compare a.1 b.1).isLE).map Prod.fst
  exact hperm.nodup_iff.2 (h.distinct.sublist (List.filter_sublist.map _))

end

/-! ## Directories -/

/-- A file system with more directories. -/
inductive Grown (fs : FileSystem) : FileSystem → Prop
  | refl : Grown fs fs
  | made {fs₁ fs₂ : FileSystem} {path : Bytes} :
      Grown fs fs₁ → fs₁.makeDirectory? path = .ok fs₂ → Grown fs fs₂

theorem makeDirectory?_eq_ok_iff {fs fs' : FileSystem} {path : Bytes} :
    fs.makeDirectory? path = .ok fs' ↔
      ∃ l, fs.site? path = .ok l ∧ fs.node? l = none ∧ fs' = fs.set l .directory := by
  unfold makeDirectory?
  cases fs.site? path with
  | error => simp
  | ok l =>
    cases hn : fs.node? l with
    | none => simp [hn, eq_comm]
    | some => simp [hn]

theorem ne_nil_of_site? {fs : FileSystem} {path : Bytes} {l : Location} (h : fs.site? path = .ok l) :
    l ≠ [] := by
  obtain ⟨-, _, _, _, _, -, -, -, -, -, -, rfl⟩ := site?_eq_ok_iff.1 h
  simp

section
variable {fs fs' fs'' : FileSystem}

theorem Grown.trans (h : Grown fs fs') (h' : Grown fs' fs'') : Grown fs fs'' := by
  induction h' with
  | refl => exact h
  | made _ hmade ih => exact .made ih hmade

theorem Grown.here (h : Grown fs fs') : fs'.here = fs.here := by
  induction h with
  | refl => rfl
  | made _ hmade ih =>
    obtain ⟨l, -, -, rfl⟩ := makeDirectory?_eq_ok_iff.1 hmade
    exact ih

/-- What was there stays, and what is new is a directory. -/
theorem Grown.node? (h : Grown fs fs') (k : Location) :
    fs'.node? k = fs.node? k ∨ fs.node? k = none ∧ fs'.node? k = some .directory := by
  induction h with
  | refl => exact .inl rfl
  | made _ hmade ih =>
    obtain ⟨l, hl, hn, rfl⟩ := makeDirectory?_eq_ok_iff.1 hmade
    rw [node?_set _ (ne_nil_of_site? hl)]
    by_cases hk : k = l
    · subst hk
      rw [hn] at ih
      rcases ih with ih | ⟨-, ih⟩
      · exact .inr ⟨ih.symm, if_pos rfl⟩
      · cases ih
    · rwa [if_neg hk]

theorem Grown.file? (h : Grown fs fs') (k : Location) : fs'.file? k = fs.file? k := by
  rcases h.node? k with hk | ⟨hk, hk'⟩
  · exact file?_congr hk
  · rw [FileSystem.file?, FileSystem.file?, hk, hk']

theorem Grown.directory (h : Grown fs fs') {k : Location} (hk : fs.node? k = some .directory) :
    fs'.node? k = some .directory := by
  rcases h.node? k with he | ⟨-, he⟩
  · rw [he, hk]
  · exact he

theorem WellFormed.makeDirectory? (h : fs.WellFormed) {path : Bytes}
    (hmade : fs.makeDirectory? path = .ok fs') : fs'.WellFormed := by
  obtain ⟨l, hsite, hn, rfl⟩ := makeDirectory?_eq_ok_iff.1 hmade
  obtain ⟨-, front, last, rest, j, -, -, hname, hlength, -, hnode, rfl⟩ := site?_eq_ok_iff.1 hsite
  have hset := node?_set fs (ne_nil_of_site? hsite) .directory
  have hkept : ∀ {k}, fs.node? k = some .directory →
      (fs.set (j ++ [last]) .directory).node? k = some .directory := by
    intro k hk
    rw [hset]
    split
    · rfl
    · exact hk
  have hnotMem : ∀ m ∈ fs.nodes, m.1 ≠ j ++ [last] := by
    intro m hm he
    have := (h.mem_nodes_iff (l := m.1) (n := m.2)).1 hm
    rw [he, hn] at this
    cases this.2
  have hnodes : (fs.set (j ++ [last]) .directory).nodes = (j ++ [last], .directory) :: fs.nodes := by
    rw [set, List.filter_eq_self.2 fun m hm => bne_iff_ne.2 (hnotMem m hm)]
  refine ⟨?_, ?_, ?_, hkept h.here⟩
  · rw [hnodes, List.map_cons, List.nodup_cons]
    refine ⟨fun hm => ?_, h.distinct⟩
    obtain ⟨m, hm, he⟩ := List.mem_map.1 hm
    exact hnotMem m hm he
  · rw [hnodes, List.forall_mem_cons]
    refine ⟨List.forall_mem_append.2 ⟨h.isName (by simp [hnode]), ?_⟩, h.named⟩
    simpa using ⟨hname, hlength⟩
  · rw [hnodes, List.forall_mem_cons]
    refine ⟨⟨by simp, ?_⟩, fun m hm => ⟨(h.standing m hm).1, hkept (h.standing m hm).2⟩⟩
    rw [List.dropLast_concat]
    exact hkept hnode

theorem Grown.wellFormed (h : Grown fs fs') (hfs : fs.WellFormed) : fs'.WellFormed := by
  induction h with
  | refl => exact hfs
  | made _ hmade ih => exact ih.makeDirectory? hmade

/-- A directory is made, or it is there already or cannot be made. -/
theorem ensureDirectory_cases (fs : FileSystem) (path : Bytes) :
    fs.makeDirectory? path = .ok (fs.ensureDirectory path).1 ∧ (fs.ensureDirectory path).2 = true ∨
      fs.ensureDirectory path = (fs, fs.isDirectory path) := by
  unfold ensureDirectory
  cases fs.makeDirectory? path with
  | ok fs' => exact .inl ⟨rfl, rfl⟩
  | error => exact .inr rfl

/-- Nothing is made, or the directory alone, or those above it and, if they are there, itself. -/
theorem makeDirectoriesWithin_cases (fuel : Nat) (path : Bytes) (fs : FileSystem) :
    ((makeDirectoriesWithin (fuel + 1) path fs).1 = fs ∧
        ((makeDirectoriesWithin (fuel + 1) path fs).2 = true → path = [] ∨ fs.isDirectory path)) ∨
      (fs.makeDirectory? path = .ok (makeDirectoriesWithin (fuel + 1) path fs).1 ∧
        (makeDirectoriesWithin (fuel + 1) path fs).2 = true) ∨
      ∃ parent, Path.parent? path = some parent ∧
        (makeDirectoriesWithin (fuel + 1) path fs = ((makeDirectoriesWithin fuel parent fs).1, false) ∨
          makeDirectoriesWithin (fuel + 1) path fs =
            (makeDirectoriesWithin fuel parent fs).1.ensureDirectory path) := by
  rw [makeDirectoriesWithin]
  split
  next h => exact .inl ⟨rfl, fun _ => .inl h⟩
  split
  next h => exact .inr (.inl ⟨h, rfl⟩)
  next => exact .inl ⟨rfl, fun h => .inr h⟩
  next => exact .inl ⟨rfl, nofun⟩
  next =>
    split
    next => exact .inl ⟨rfl, nofun⟩
    next parent hparent =>
      refine .inr (.inr ⟨parent, hparent, ?_⟩)
      obtain ⟨fs', _ | _⟩ := makeDirectoriesWithin fuel parent fs
      · exact .inl rfl
      · exact .inr rfl

theorem grown_ensureDirectory (fs : FileSystem) (path : Bytes) :
    Grown fs (fs.ensureDirectory path).1 := by
  rcases ensureDirectory_cases fs path with ⟨h, -⟩ | h
  · exact .made .refl h
  · rw [h]
    exact .refl

theorem grown_makeDirectoriesWithin (fuel : Nat) (path : Bytes) (fs : FileSystem) :
    Grown fs (makeDirectoriesWithin fuel path fs).1 := by
  induction fuel generalizing path fs with
  | zero => exact .refl
  | succ fuel ih =>
    rcases makeDirectoriesWithin_cases fuel path fs with ⟨h, -⟩ | ⟨h, -⟩ | ⟨parent, -, h | h⟩
    · rw [h]
      exact .refl
    · exact .made .refl h
    · rw [h]
      exact ih parent fs
    · rw [h]
      exact (ih parent fs).trans (grown_ensureDirectory _ path)

theorem grown_makeDirectories (fs : FileSystem) (path : Bytes) : Grown fs (fs.makeDirectories path).1 :=
  grown_makeDirectoriesWithin _ path fs

end

/-! ## Directories that are there -/

section
variable {fs fs' : FileSystem} {path : Bytes}

theorem isDirectory_of_site? {l : Location} (h : fs.site? path = .ok l)
    (hl : fs.node? l = some .directory) : fs.isDirectory path := by
  obtain ⟨hu, front, last, rest, k, hsplit, hrest, hname, hlength, hwalk, hnode, rfl⟩ :=
    site?_eq_ok_iff.1 h
  have hpath : path ≠ [] := by
    rintro rfl
    cases h
  refine isDirectory_iff.2 ⟨hu, hpath, _, ?_, hl⟩
  rw [hsplit]
  refine walk?_append_eq_ok_iff.2 ⟨k, hwalk, walk?_cons_eq_ok_iff.2 ⟨hnode, hlength, ?_⟩⟩
  rw [step_of_isName k hname]
  exact walk?_of_forall_nil hrest hl

/-- **A directory that is there is not made again.** -/
theorem makeDirectories_of_isDirectory (h : fs.isDirectory path) :
    fs.makeDirectories path = (fs, true) := by
  obtain ⟨hu, hpath, l, hwalk, hl⟩ := isDirectory_iff.1 h
  have hmade : fs.makeDirectory? path = .error .occupied := by
    unfold makeDirectory? site? entrance?
    rw [hu, Bool.not_true, if_neg Bool.false_ne_true]
    cases hparts : (Bytes.splitOn Byte.slash path).reverse.dropWhile (· == []) with
    | nil => simp [hpath]
    | cons last front =>
      obtain ⟨rest, hsplit, hrest, hlast⟩ := reverse_dropWhile_eq_cons_iff.1 hparts
      rw [hsplit] at hwalk
      obtain ⟨k, hfront, hwalk⟩ := walk?_append_eq_ok_iff.1 hwalk
      obtain ⟨hnode, hlength, hwalk⟩ := walk?_cons_eq_ok_iff.1 hwalk
      simp only [hfront, hnode]
      by_cases hdots : last = Path.here ∨ last = Path.above
      · rw [if_pos hdots]
      · rw [if_neg hdots, if_neg (Nat.not_lt_of_le hlength)]
        -- the last part is a name, so the path leads to its node
        rw [not_or] at hdots
        have hidle : Path.isIdle last = false := by simp [Path.isIdle, hdots.1, hlast]
        have hend : l = k ++ [last] := by
          rw [(walk?_eq_ok_iff.1 hwalk).1, follow_of_isIdle, step, hidle, if_neg Bool.false_ne_true,
            if_neg hdots.2]
          intro p hp
          rw [beq_iff_eq.1 (hrest p hp)]
          rfl
        rw [← hend]
        dsimp only
        rw [hl]
        rfl
  rw [makeDirectories, makeDirectoriesWithin, if_neg hpath, hmade, h]

end

/-! ## Directories by their absolute paths -/

theorem parent?_path {l : Location} {p : Bytes} (h : ∀ q ∈ l ++ [p], IsName q) :
    Path.parent? (Location.path (l ++ [p])) = some l.path := by
  obtain ⟨hl, hp⟩ := List.forall_mem_append.1 h
  have hp := (hp p (List.mem_singleton_self p)).isIdle
  have hanchor : Path.anchor (Location.path (l ++ [p])) = [Byte.slash] := by
    rw [Path.anchor, splitOn_path (by simp) h, Location.path_eq]
    rfl
  have hback : Path.partsBack (Location.path (l ++ [p])) = p :: l.reverse := by
    rw [Path.partsBack, hanchor, Location.path_eq]
    simp only [List.length_singleton, List.drop_one, List.tail_cons]
    rw [Bytes.splitOn_intercalate (by simp) fun q hq => (h q hq).slash_notMem, List.reverse_concat,
      List.dropWhile_cons_of_neg (by simp [hp])]
  have hrest : l.reverse.dropWhile Path.isIdle = l.reverse := by
    cases hr : l.reverse with
    | nil => rfl
    | cons q rest =>
      have hq : q ∈ l := List.mem_reverse.1 (hr ▸ List.mem_cons_self)
      rw [List.dropWhile_cons_of_neg (by simp [(hl q hq).isIdle])]
  rw [Path.parent?, hback, hanchor]
  simp only [hrest, List.reverse_reverse]
  rw [Location.path_eq]
  rfl

section
variable {fs : FileSystem} {l : Location}

/-- One directory, if the one above it is there. -/
theorem ensureDirectory_path (hne : l ≠ []) (hl : l.IsProper) (hopen : fs.IsOpen l)
    (hfile : ∀ content, fs.node? l ≠ some (.file content)) :
    (fs.ensureDirectory l.path).2 = true ∧
      ∀ k, (fs.ensureDirectory l.path).1.node? k = if k = l then some .directory else fs.node? k := by
  have hsite : fs.site? l.path = .ok l := (site?_path_eq_ok_iff hne hl.name).2 ⟨rfl, hl, hopen⟩
  cases hn : fs.node? l with
  | none =>
    have hmade : fs.makeDirectory? l.path = .ok (fs.set l .directory) :=
      makeDirectory?_eq_ok_iff.2 ⟨l, hsite, hn, rfl⟩
    rw [ensureDirectory, hmade]
    exact ⟨rfl, node?_set fs hne .directory⟩
  | some n =>
    cases n with
    | file content => exact absurd hn (hfile content)
    | directory =>
      have hmade : fs.makeDirectory? l.path = .error .occupied := by
        simp [makeDirectory?, hsite, hn]
      rw [ensureDirectory, hmade]
      refine ⟨isDirectory_path hl hopen hn, fun k => ?_⟩
      by_cases hk : k = l
      · rw [if_pos hk, hk]
        exact hn
      · rw [if_neg hk]

theorem makeDirectoriesWithin_eq_ensureDirectory {fuel : Nat} {path : Bytes} {l : Location}
    (h : fs.site? path = .ok l) : makeDirectoriesWithin (fuel + 1) path fs = fs.ensureDirectory path := by
  have hpath : path ≠ [] := by
    rintro rfl
    cases h
  rw [makeDirectoriesWithin, if_neg hpath, ensureDirectory, makeDirectory?, h]
  dsimp only
  cases (fs.node? l).isSome <;> rfl

theorem makeDirectoriesWithin_path {fuel : Nat} (hfuel : l.length < fuel) (hl : l.IsProper)
    (hfile : ∀ k, k <+: l → ∀ content, fs.node? k ≠ some (.file content)) :
    (makeDirectoriesWithin fuel l.path fs).2 = true ∧
      ∀ k, (makeDirectoriesWithin fuel l.path fs).1.node? k =
        if k <+: l then some .directory else fs.node? k := by
  obtain ⟨fuel, rfl⟩ := Nat.exists_eq_succ_of_ne_zero (Nat.ne_of_gt (Nat.zero_lt_of_lt hfuel))
  induction l using List.reverseRecOn generalizing fuel with
  | nil =>
    have hmade : makeDirectoriesWithin (fuel + 1) (Location.path []) fs =
      (fs, fs.isDirectory (Location.path [])) := rfl
    have hopen : fs.IsOpen [] := fun k hk hne => absurd (List.prefix_nil.1 hk) hne
    rw [hmade]
    refine ⟨isDirectory_path hl hopen rfl, fun k => ?_⟩
    by_cases hk : k <+: []
    · rw [if_pos hk, List.prefix_nil.1 hk]
      rfl
    · rw [if_neg hk]
  | append_singleton l p ih =>
    have hne : l ++ [p] ≠ [] := by simp
    have habove : ∀ {k}, k <+: l ++ [p] ↔ k = l ++ [p] ∨ k <+: l := List.prefix_concat_iff
    have hnotAbove : ¬ l ++ [p] <+: l := fun h => prefix_ne_concat h p rfl
    -- the last directory, once those above it are there
    have hlast : ∀ {fs' : FileSystem},
        (∀ k, fs'.node? k = if k <+: l then some .directory else fs.node? k) →
        (fs'.ensureDirectory (Location.path (l ++ [p]))).2 = true ∧
          ∀ k, (fs'.ensureDirectory (Location.path (l ++ [p]))).1.node? k =
            if k <+: l ++ [p] then some .directory else fs.node? k := by
      intro fs' hnode
      have hopen : fs'.IsOpen (l ++ [p]) := fun k hk hkne => by
        rw [hnode, if_pos ((habove.1 hk).resolve_left hkne)]
      obtain ⟨hmade, hnode'⟩ := ensureDirectory_path hne hl hopen (by
        rw [hnode, if_neg hnotAbove]
        exact hfile _ (List.prefix_refl _))
      refine ⟨hmade, fun k => ?_⟩
      simp only [hnode', hnode, habove]
      by_cases hk : k = l ++ [p] <;> simp [hk]
    rcases site?_path_eq_ok_or_missing hne hl fun k hk _ => hfile k hk with hsite | hsite
    · have hopen := ((site?_path_eq_ok_iff hne hl.name).1 hsite).2.2
      rw [makeDirectoriesWithin_eq_ensureDirectory hsite]
      refine hlast fun k => ?_
      split
      next hk => exact hopen k (habove.2 (.inr hk)) fun he => hnotAbove (he ▸ hk)
      next => rfl
    · have hmissing : fs.makeDirectory? (Location.path (l ++ [p])) = .error .missing := by
        rw [makeDirectory?, hsite]
      have hlength : l.length < fuel := by
        rw [List.length_append, List.length_singleton] at hfuel
        omega
      obtain ⟨fuel, rfl⟩ := Nat.exists_eq_succ_of_ne_zero (Nat.ne_of_gt (Nat.zero_lt_of_lt hlength))
      obtain ⟨hparent, hnode⟩ := ih (hl.of_prefix (List.prefix_append l [p]))
        (fun k hk => hfile k (habove.2 (.inr hk))) fuel hlength
      rw [makeDirectoriesWithin, if_neg (by rw [Location.path_eq]; simp), hmissing]
      simp only [parent?_path hl.name]
      revert hparent hnode
      generalize makeDirectoriesWithin (fuel + 1) (Location.path l) fs = made
      obtain ⟨fs', made⟩ := made
      rintro rfl hnode
      exact hlast hnode

theorem length_lt_length_path (l : Location) : l.length < l.path.length + 1 := by
  have hflat : l.length ≤ (l.flatMap (Byte.slash :: ·)).length := by
    induction l with
    | nil => exact Nat.zero_le _
    | cons p l ih =>
      rw [List.flatMap_cons, List.length_append, List.length_cons, List.length_cons]
      omega
  unfold Location.path
  split
  next h => simp [h]
  next => exact Nat.lt_succ_of_le hflat

/-- **A directory and those above it, if no file is in the way.** -/
theorem makeDirectories_path (hl : l.IsProper)
    (hfile : ∀ k, k <+: l → ∀ content, fs.node? k ≠ some (.file content)) :
    (fs.makeDirectories l.path).2 = true ∧
      ∀ k, (fs.makeDirectories l.path).1.node? k =
        if k <+: l then some .directory else fs.node? k :=
  makeDirectoriesWithin_path (length_lt_length_path l) hl hfile

/-- **A directory that could be made has short names, and no file was in the way.** -/
theorem isProper_of_makeDirectories (h : ∀ p ∈ l, IsName p)
    (hmade : (fs.makeDirectories l.path).2 = true) :
    l.IsProper ∧ ∀ k, k <+: l → ∀ content, fs.node? k ≠ some (.file content) := by
  -- at the end of the recursion the directory is there, or it is made in the one above it
  obtain ⟨fs₁, hgrown, hfs₁⟩ : ∃ fs₁, Grown fs fs₁ ∧
      (fs₁.isDirectory l.path ∨ ∃ fs₂, fs₁.makeDirectory? l.path = .ok fs₂) := by
    unfold makeDirectories at hmade
    rcases makeDirectoriesWithin_cases l.path.length l.path fs with
      ⟨-, hthere⟩ | ⟨hmake, -⟩ | ⟨parent, -, hfalse | hensured⟩
    · refine ⟨fs, .refl, .inl ((hthere hmade).resolve_left ?_)⟩
      rw [Location.path_eq]
      exact List.cons_ne_nil _ _
    · exact ⟨fs, .refl, .inr ⟨_, hmake⟩⟩
    · rw [hfalse] at hmade
      cases hmade
    · refine ⟨_, grown_makeDirectoriesWithin l.path.length parent fs, ?_⟩
      rw [hensured] at hmade
      rcases ensureDirectory_cases (makeDirectoriesWithin l.path.length parent fs).1 l.path with
        ⟨hmake, -⟩ | hsame
      · exact .inr ⟨_, hmake⟩
      · rw [hsame] at hmade
        exact .inl hmade
  obtain ⟨hproper, hopen, hlast⟩ : l.IsProper ∧ fs₁.IsOpen l ∧
      ∀ content, fs₁.node? l ≠ some (.file content) := by
    rcases hfs₁ with hdirectory | ⟨fs₂, hmake⟩
    · obtain ⟨hproper, hopen, hnode⟩ := (isDirectory_path_iff h).1 hdirectory
      exact ⟨hproper, hopen, by rw [hnode]; nofun⟩
    · obtain ⟨k, hsite, hnode, -⟩ := makeDirectory?_eq_ok_iff.1 hmake
      have hne : l ≠ [] := by
        rintro rfl
        exact ne_nil_of_site? hsite (eq_locationOf_of_site? hsite)
      obtain ⟨rfl, hproper, hopen⟩ := (site?_path_eq_ok_iff hne h).1 hsite
      exact ⟨hproper, hopen, by rw [hnode]; nofun⟩
  refine ⟨hproper, fun k hk content hfile => ?_⟩
  have hkept : fs₁.node? k = some (.file content) := by
    rcases hgrown.node? k with hnode | ⟨hnone, -⟩
    · rw [hnode, hfile]
    · rw [hnone] at hfile
      cases hfile
  by_cases he : k = l
  · exact hlast content (he ▸ hkept)
  · rw [hopen k hk he] at hkept
    cases hkept

end

end PackageMigration.FileSystem
