import PackageMigration.Migration.File
import PackageMigration.Proofs.FileSystem.Tree
/-
  What changes to a file system do to its files and directories.

  Main statements: `wellFormed_applyAll`, `applyAll_append_eq_none_iff` (changes one after the other),
  `applyAll_makeDirectories_path`, `node?_applyAll_commit`, `applyAll_commit_of_free` (a file is put in
  place, and when it can be), `applyAll_commits`, `directory_applyAll_commits`, `applyAll_remove`,
  `applyAll_remove_of_file`.
-/
namespace PackageMigration

open FileSystem
open PackageMigration.Path (IsName)

section
variable {fs fs' : FileSystem} {l : Location} {content : Bytes}

/-! ## Single changes -/

theorem getLast?_path (hne : l ≠ []) (h : ∀ p ∈ l, IsName p) : l.path.getLast? ≠ some Byte.slash := by
  obtain ⟨l, p, rfl⟩ := exists_eq_concat hne
  have hp := h p (by simp)
  rw [Location.path, if_neg hne, List.flatMap_append, List.flatMap_singleton, List.append_cons,
    List.getLast?_append_of_ne_nil _ hp.ne_nil]
  exact fun hlast => hp.slash_notMem (List.mem_of_getLast? hlast)

theorem FileSystem.place?_eq_some_iff {path : Bytes} :
    fs.place? path content = some fs' ↔
      path.getLast? ≠ some Byte.slash ∧ ∃ l, fs.site? path = .ok l ∧ fs.node? l ≠ some .directory ∧
        fs' = fs.set l (.file content) := by
  unfold place?
  split
  next h => exact iff_of_false nofun fun hp => hp.1 h
  next h =>
    cases fs.site? path with
    | error => simp
    | ok l =>
      by_cases hl : fs.node? l = some .directory
      · simp [hl]
      · simp [hl, h, @eq_comm _ fs']

theorem place?_path_eq_some_iff (hne : l ≠ []) (h : ∀ p ∈ l, IsName p) :
    fs.place? l.path content = some fs' ↔ l.IsProper ∧ fs.IsOpen l ∧
      fs.node? l ≠ some .directory ∧ fs' = fs.set l (.file content) := by
  rw [place?_eq_some_iff, and_iff_right (getLast?_path hne h)]
  simp only [site?_path_eq_ok_iff hne h]
  constructor
  · rintro ⟨k, ⟨rfl, hl, hopen⟩, hnode, rfl⟩
    exact ⟨hl, hopen, hnode, rfl⟩
  · rintro ⟨hl, hopen, hnode, rfl⟩
    exact ⟨l, ⟨rfl, hl, hopen⟩, hnode, rfl⟩

theorem remove?_path_eq_some_iff (hne : l ≠ []) (h : ∀ p ∈ l, IsName p) :
    fs.remove? l.path = some fs' ↔ l.IsProper ∧ fs.IsOpen l ∧
      (∃ content, fs.node? l = some (.file content)) ∧ fs' = fs.erase l := by
  unfold remove?
  rw [if_neg (getLast?_path hne h)]
  constructor
  · intro hremove
    split at hremove
    · cases hremove
    next k hsite =>
      obtain ⟨rfl, hl, hopen⟩ := (site?_path_eq_ok_iff hne h).1 hsite
      split at hremove
      next content hnode => cases hremove; exact ⟨hl, hopen, ⟨content, hnode⟩, rfl⟩
      · cases hremove
  · rintro ⟨hl, hopen, ⟨content, hnode⟩, rfl⟩
    rw [(site?_path_eq_ok_iff hne h).2 ⟨rfl, hl, hopen⟩]
    dsimp only
    rw [hnode]

theorem file?_erase (hne : l ≠ []) (k : Location) :
    (fs.erase l).file? k = if k = l then none else fs.file? k := by
  unfold file?
  rw [node?_erase fs hne]
  by_cases hk : k = l <;> simp [hk]

/-! ## Well-formed file systems -/

theorem FileSystem.WellFormed.set_file (h : fs.WellFormed) (hne : l ≠ [])
    (hname : ∀ p ∈ l, IsName p ∧ p.length ≤ Path.longestPart)
    (hparent : fs.node? l.dropLast = some .directory) (hfree : fs.node? l ≠ some .directory)
    (content : Bytes) : (fs.set l (.file content)).WellFormed := by
  have hkept : ∀ {k}, fs.node? k = some .directory →
      (fs.set l (.file content)).node? k = some .directory := by
    intro k hk
    rw [node?_set fs hne, if_neg ?_]
    · exact hk
    · rintro rfl
      exact hfree hk
  refine ⟨?_, ?_, ?_, hkept h.here⟩
  · rw [set, List.map_cons, List.nodup_cons]
    refine ⟨fun hm => ?_, h.distinct.sublist (List.filter_sublist.map _)⟩
    obtain ⟨m, hm, he⟩ := List.mem_map.1 hm
    exact bne_iff_ne.1 (List.mem_filter.1 hm).2 he
  · exact List.forall_mem_cons.2 ⟨hname, fun m hm => h.named m (List.mem_of_mem_filter hm)⟩
  · refine List.forall_mem_cons.2 ⟨⟨hne, hkept hparent⟩, fun m hm => ?_⟩
    obtain ⟨hm, hdirectory⟩ := h.standing m (List.mem_of_mem_filter hm)
    exact ⟨hm, hkept hdirectory⟩

theorem FileSystem.WellFormed.erase_file (h : fs.WellFormed) (hfile : fs.node? l = some (.file content)) :
    (fs.erase l).WellFormed := by
  have hne : l ≠ [] := by
    rintro rfl
    cases hfile
  have hkept : ∀ {k}, fs.node? k = some .directory → (fs.erase l).node? k = some .directory := by
    intro k hk
    rw [node?_erase fs hne, if_neg ?_]
    · exact hk
    · rintro rfl
      rw [hk] at hfile
      cases hfile
  refine ⟨h.distinct.sublist (List.filter_sublist.map _),
    fun m hm => h.named m (List.mem_of_mem_filter hm), fun m hm => ?_, hkept h.here⟩
  obtain ⟨hm, hdirectory⟩ := h.standing m (List.mem_of_mem_filter hm)
  exact ⟨hm, hkept hdirectory⟩

/-- A change keeps a file system well-formed, and the working directory where it is. -/
theorem Edit.wellFormed_apply (h : fs.WellFormed) (e : Edit) :
    (e.apply fs).1.WellFormed ∧ (e.apply fs).1.here = fs.here := by
  cases e with
  | makeDirectories path =>
    exact ⟨(grown_makeDirectories fs path).wellFormed h, (grown_makeDirectories fs path).here⟩
  | reserve => exact ⟨h, rfl⟩
  | place path content =>
    rw [apply]
    cases hplace : fs.place? path content with
    | none => exact ⟨h, rfl⟩
    | some fs' =>
      unfold place? at hplace
      split at hplace
      · cases hplace
      split at hplace
      · cases hplace
      next l hsite =>
        split at hplace
        · cases hplace
        next hfree =>
          cases hplace
          obtain ⟨-, front, last, rest, k, -, -, hlast, hlength, -, hnode, rfl⟩ := site?_eq_ok_iff.1 hsite
          refine ⟨h.set_file (by simp) ?_ (by rwa [List.dropLast_concat]) hfree content, rfl⟩
          refine List.forall_mem_append.2 ⟨h.isName (by simp [hnode]), ?_⟩
          exact List.forall_mem_singleton.2 ⟨hlast, hlength⟩
  | remove path =>
    rw [apply]
    cases hremove : fs.remove? path with
    | none => exact ⟨h, rfl⟩
    | some fs' =>
      unfold remove? at hremove
      split at hremove
      · cases hremove
      split at hremove
      · cases hremove
      next l hsite =>
        split at hremove
        next content hnode =>
          cases hremove
          exact ⟨h.erase_file hnode, rfl⟩
        · cases hremove

/-- **Changes keep a file system well-formed**, also if one of them fails. -/
theorem Edit.wellFormed_applyAll (h : fs.WellFormed) (es : List Edit) :
    (applyAll fs es).1.WellFormed ∧ (applyAll fs es).1.here = fs.here := by
  induction es generalizing fs with
  | nil => exact ⟨h, rfl⟩
  | cons e es ih =>
    obtain ⟨hfs, hhere⟩ := e.wellFormed_apply h
    rw [applyAll]
    generalize e.apply fs = applied at hfs hhere
    obtain ⟨fs₁, _ | _⟩ := applied
    · exact ⟨hfs, hhere⟩
    · obtain ⟨hall, hhere'⟩ := ih hfs
      exact ⟨hall, hhere'.trans hhere⟩

/-! ## Changes one after the other -/

theorem Edit.applyAll_cons_eq_none_iff {e : Edit} {es : List Edit} {fs'' : FileSystem} :
    Edit.applyAll fs (e :: es) = (fs'', none) ↔
      ∃ fs', e.apply fs = (fs', true) ∧ Edit.applyAll fs' es = (fs'', none) := by
  rw [applyAll]
  obtain ⟨fs', _ | _⟩ := e.apply fs <;> simp

theorem Edit.applyAll_append {es es' : List Edit} (h : Edit.applyAll fs es = (fs', none)) :
    Edit.applyAll fs (es ++ es') = Edit.applyAll fs' es' := by
  induction es generalizing fs with
  | nil => cases h; rfl
  | cons e es ih =>
    obtain ⟨fs₁, happly, h⟩ := applyAll_cons_eq_none_iff.1 h
    rw [List.cons_append, applyAll, happly]
    exact ih h

theorem Edit.applyAll_append_eq_none_iff {es es' : List Edit} {fs'' : FileSystem} :
    Edit.applyAll fs (es ++ es') = (fs'', none) ↔
      ∃ fs', Edit.applyAll fs es = (fs', none) ∧ Edit.applyAll fs' es' = (fs'', none) := by
  induction es generalizing fs with
  | nil => simp [applyAll]
  | cons e es ih =>
    simp only [List.cons_append, applyAll_cons_eq_none_iff, ih]
    exact ⟨fun ⟨fs₁, h₁, fs₂, h₂, h⟩ => ⟨fs₂, ⟨fs₁, h₁, h₂⟩, h⟩,
      fun ⟨fs₂, ⟨fs₁, h₁, h₂⟩, h⟩ => ⟨fs₁, h₁, fs₂, h₂, h⟩⟩

/-- Changes succeed if those for each item do wherever a property holds that they keep. -/
theorem Edit.exists_applyAll_flatMap {α : Type} {P : FileSystem → Prop} {items : List α}
    {edits : α → List Edit} (hstep : ∀ a ∈ items, ∀ fs, P fs →
      ∃ fs', Edit.applyAll fs (edits a) = (fs', none) ∧ P fs') (h : P fs) :
    ∃ fs', Edit.applyAll fs (items.flatMap edits) = (fs', none) ∧ P fs' := by
  induction items generalizing fs with
  | nil => exact ⟨fs, rfl, h⟩
  | cons a items ih =>
    obtain ⟨ha, hitems⟩ := List.forall_mem_cons.1 hstep
    obtain ⟨fs₁, happly, h₁⟩ := ha fs h
    obtain ⟨fs', happly', h'⟩ := ih hitems h₁
    exact ⟨fs', applyAll_append_eq_none_iff.2 ⟨fs₁, happly, happly'⟩, h'⟩

theorem Edit.applyAll_makeDirectories {paths : List Bytes}
    (h : Edit.applyAll fs (paths.map .makeDirectories) = (fs', none)) : Grown fs fs' := by
  induction paths generalizing fs with
  | nil => cases h; exact .refl
  | cons path paths ih =>
    obtain ⟨fs₁, hmade, h⟩ := applyAll_cons_eq_none_iff.1 h
    have hgrown : Grown fs (fs.makeDirectories path).1 := grown_makeDirectories fs path
    rw [show fs.makeDirectories path = (fs₁, true) from hmade] at hgrown
    exact hgrown.trans (ih h)

/-- Directories that are there already need no change. -/
theorem Edit.applyAll_makeDirectories_of_isDirectory {paths : List Bytes}
    (h : ∀ path ∈ paths, fs.isDirectory path) :
    Edit.applyAll fs (paths.map .makeDirectories) = (fs, none) := by
  induction paths with
  | nil => rfl
  | cons path paths ih =>
    obtain ⟨hpath, hpaths⟩ := List.forall_mem_cons.1 h
    exact applyAll_cons_eq_none_iff.2 ⟨fs, makeDirectories_of_isDirectory hpath, ih hpaths⟩

/-- **Directories that are made one after the other**, each with those above it. -/
theorem Edit.applyAll_makeDirectories_path {ls : List Location} (h : ∀ l ∈ ls, ∀ p ∈ l, IsName p)
    (happly : Edit.applyAll fs (ls.map fun l => .makeDirectories l.path) = (fs', none)) :
    (∀ l ∈ ls, l.IsProper) ∧
      ∀ k, fs'.node? k = if ∃ l ∈ ls, k <+: l then some .directory else fs.node? k := by
  induction ls generalizing fs with
  | nil =>
    cases happly
    exact ⟨nofun, fun k => (if_neg (by simp)).symm⟩
  | cons l ls ih =>
    obtain ⟨hl, hls⟩ := List.forall_mem_cons.1 h
    obtain ⟨fs₁, hmade, happly⟩ := applyAll_cons_eq_none_iff.1 happly
    have hmade : fs.makeDirectories l.path = (fs₁, true) := hmade
    obtain ⟨hproper, hfile⟩ := isProper_of_makeDirectories hl (congrArg Prod.snd hmade)
    have hnode := (makeDirectories_path hproper hfile).2
    rw [hmade] at hnode
    obtain ⟨hpropers, hnodes⟩ := ih hls happly
    refine ⟨List.forall_mem_cons.2 ⟨hproper, hpropers⟩, fun k => ?_⟩
    rw [hnodes, hnode]
    by_cases hk : k <+: l <;> simp [hk]

namespace Migration

/-- The changes that put a file in place by its absolute path. -/
theorem commit_path (hne : l ≠ []) (h : ∀ p ∈ l, IsName p) :
    commit l.path content = [.makeDirectories (Location.path l.dropLast), .place l.path content] := by
  obtain ⟨l, p, rfl⟩ := exists_eq_concat hne
  have hpath : Location.path l ≠ [] := by rw [Location.path_eq]; simp
  rw [commit, directoryOf?, parent?_path h, List.dropLast_concat, Option.filter_some]
  simp [hpath]

theorem prefix_dropLast_iff {l k : Location} (hne : l ≠ []) : k <+: l.dropLast ↔ k <+: l ∧ k ≠ l := by
  obtain ⟨l, p, rfl⟩ := exists_eq_concat hne
  rw [List.dropLast_concat, List.prefix_concat_iff]
  constructor
  · intro hk
    exact ⟨.inr hk, prefix_ne_concat hk p⟩
  · rintro ⟨hk, hkne⟩
    exact hk.resolve_left hkne

/-- **A file that is put in place stands there, in the directories above it, and nothing else changes.** -/
theorem node?_applyAll_commit (hne : l ≠ []) (h : ∀ p ∈ l, IsName p)
    (happly : Edit.applyAll fs (commit l.path content) = (fs', none)) :
    l.IsProper ∧ (∀ k, k <+: l → k ≠ l → ∀ content, fs.node? k ≠ some (.file content)) ∧
      fs.node? l ≠ some .directory ∧ ∀ k, fs'.node? k =
        if k = l then some (.file content) else if k <+: l then some .directory else fs.node? k := by
  rw [commit_path hne h] at happly
  obtain ⟨fs₁, hmade, happly⟩ := Edit.applyAll_cons_eq_none_iff.1 happly
  obtain ⟨fs₂, hplace, happly⟩ := Edit.applyAll_cons_eq_none_iff.1 happly
  cases happly
  have hmade : fs.makeDirectories (Location.path l.dropLast) = (fs₁, true) := hmade
  obtain ⟨habove, hfile⟩ := isProper_of_makeDirectories
    (fun p hp => h p (List.mem_of_mem_dropLast hp)) (congrArg Prod.snd hmade)
  have hnode := (makeDirectories_path habove hfile).2
  rw [hmade] at hnode
  simp only [prefix_dropLast_iff hne] at hnode hfile
  rw [Edit.apply] at hplace
  split at hplace
  next fs₃ hfs₃ =>
    cases hplace
    obtain ⟨hproper, -, hfree, rfl⟩ := (place?_path_eq_some_iff hne h).1 hfs₃
    rw [hnode, if_neg fun hl => hl.2 rfl] at hfree
    refine ⟨hproper, fun k hk hkne => hfile k ⟨hk, hkne⟩, hfree, fun k => ?_⟩
    rw [node?_set fs₁ hne, hnode]
    by_cases hk : k = l <;> simp [hk]
  · cases hplace

/-- A file that is put in place has its content, and no other file changes. -/
theorem applyAll_commit (hne : l ≠ []) (h : ∀ p ∈ l, IsName p)
    (happly : Edit.applyAll fs (commit l.path content) = (fs', none)) (k : Location) :
    fs'.file? k = if k = l then some content else fs.file? k := by
  obtain ⟨-, habove, -, hnode⟩ := node?_applyAll_commit hne h happly
  have hnode := hnode k
  split
  next hk => rw [file?_eq_some_iff, hnode, if_pos hk]
  next hk =>
    rw [if_neg hk] at hnode
    split at hnode
    next hprefix =>
      rw [file?_eq_none_of_directory hnode, eq_comm, Option.eq_none_iff_forall_ne_some]
      exact fun content hfile => habove k hprefix hk content (file?_eq_some_iff.1 hfile)
    next => exact file?_congr hnode

/-- Files that are put in place one after the other, or left as they are. -/
theorem applyAll_commits {α : Type} {items : List α} {place : α → Location} {new : α → Option Bytes}
    (h : ∀ a ∈ items, place a ≠ [] ∧ ∀ p ∈ place a, IsName p) (hd : (items.map place).Nodup)
    (happly : Edit.applyAll fs (items.flatMap fun a => ((new a).map (commit (place a).path)).getD []) =
      (fs', none)) :
    (∀ a ∈ items, fs'.file? (place a) = (new a).or (fs.file? (place a))) ∧
      ∀ k ∉ items.map place, fs'.file? k = fs.file? k := by
  induction items generalizing fs with
  | nil =>
    cases happly
    exact ⟨nofun, fun k _ => rfl⟩
  | cons a items ih =>
    obtain ⟨⟨hne, hname⟩, hitems⟩ := List.forall_mem_cons.1 h
    obtain ⟨hnotMem, hd⟩ := List.nodup_cons.1 hd
    rw [List.flatMap_cons, Edit.applyAll_append_eq_none_iff] at happly
    obtain ⟨fs₁, hcommit, happly⟩ := happly
    obtain ⟨hmem, hother⟩ := ih hitems hd happly
    have hfirst : ∀ k, fs₁.file? k = if k = place a then (new a).or (fs.file? k) else fs.file? k := by
      intro k
      cases hnew : new a with
      | none =>
        rw [hnew] at hcommit
        cases hcommit
        rw [Option.none_or, ite_self]
      | some content =>
        rw [hnew] at hcommit
        rw [applyAll_commit hne hname hcommit, Option.some_or]
    refine ⟨List.forall_mem_cons.2 ⟨?_, fun b hb => ?_⟩, fun k hk => ?_⟩
    · rw [hother _ hnotMem, hfirst, if_pos rfl]
    · have hplace : place b ≠ place a := fun he => hnotMem (he ▸ List.mem_map_of_mem hb)
      rw [hmem b hb, hfirst, if_neg hplace]
    · rw [List.map_cons, List.mem_cons, not_or] at hk
      rw [hother k hk.2, hfirst, if_neg hk.1]

/-- A file can be put in place if no file is above it and no directory at its place. -/
theorem applyAll_commit_of_free (hne : l ≠ []) (hl : l.IsProper)
    (habove : ∀ k, k <+: l → k ≠ l → ∀ content, fs.node? k ≠ some (.file content))
    (hplace : fs.node? l ≠ some .directory) (content : Bytes) :
    ∃ fs', Edit.applyAll fs (commit l.path content) = (fs', none) ∧
      ∀ k, fs'.node? k =
        if k = l then some (.file content) else if k <+: l then some .directory else fs.node? k := by
  have hproper := hl.of_prefix (List.dropLast_prefix l)
  have hfile : ∀ k, k <+: l.dropLast → ∀ content, fs.node? k ≠ some (.file content) := fun k hk =>
    have hk := (prefix_dropLast_iff hne).1 hk
    habove k hk.1 hk.2
  obtain ⟨hmade, hnode⟩ := makeDirectories_path hproper hfile
  generalize hfs₁ : fs.makeDirectories (Location.path l.dropLast) = made at hmade hnode
  obtain ⟨fs₁, _⟩ := made
  obtain rfl := hmade
  have hopen : fs₁.IsOpen l := fun k hk hkne => by
    rw [hnode, if_pos ((prefix_dropLast_iff hne).2 ⟨hk, hkne⟩)]
  have hfree : fs₁.node? l ≠ some .directory := by
    rw [hnode, if_neg fun h => ((prefix_dropLast_iff hne).1 h).2 rfl]
    exact hplace
  have hset : fs₁.place? l.path content = some (fs₁.set l (.file content)) :=
    (place?_path_eq_some_iff hne hl.name).2 ⟨hl, hopen, hfree, rfl⟩
  refine ⟨fs₁.set l (.file content), ?_, fun k => ?_⟩
  · rw [commit_path hne hl.name, Edit.applyAll_cons_eq_none_iff]
    refine ⟨fs₁, hfs₁, Edit.applyAll_cons_eq_none_iff.2 ⟨_, ?_, rfl⟩⟩
    rw [Edit.apply, hset]
  · rw [node?_set fs₁ hne, hnode]
    by_cases hk : k = l
    · rw [if_pos hk, if_pos hk]
    · rw [if_neg hk, if_neg hk]
      simp only [prefix_dropLast_iff hne, hk, ne_eq, not_false_eq_true, and_true]

/-- **Directories after files were put in place**: the old ones and those above the files. -/
theorem directory_applyAll_commits {α : Type} {items : List α} {place : α → Location}
    {new : α → Option Bytes} (h : ∀ a ∈ items, place a ≠ [] ∧ ∀ p ∈ place a, IsName p)
    (happly : Edit.applyAll fs (items.flatMap fun a => ((new a).map (commit (place a).path)).getD []) =
      (fs', none)) :
    (∀ a ∈ items, new a ≠ none → (place a).IsProper) ∧
      ∀ k, fs'.node? k = some .directory ↔ fs.node? k = some .directory ∨
        ∃ a ∈ items, new a ≠ none ∧ k <+: place a ∧ k ≠ place a := by
  induction items generalizing fs with
  | nil =>
    cases happly
    exact ⟨nofun, fun k => by simp⟩
  | cons a items ih =>
    obtain ⟨⟨hne, hname⟩, hitems⟩ := List.forall_mem_cons.1 h
    rw [List.flatMap_cons, Edit.applyAll_append_eq_none_iff] at happly
    obtain ⟨fs₁, hcommit, happly⟩ := happly
    obtain ⟨hproper, hdirectory⟩ := ih hitems happly
    simp only [List.forall_mem_cons, List.exists_mem_cons_iff, hdirectory]
    cases hnew : new a with
    | none =>
      rw [hnew] at hcommit
      cases hcommit
      exact ⟨⟨fun hn => absurd rfl hn, hproper⟩, by simp⟩
    | some content =>
      rw [hnew] at hcommit
      obtain ⟨hl, -, hfree, hnode⟩ := node?_applyAll_commit hne hname hcommit
      refine ⟨⟨fun _ => hl, hproper⟩, fun k => ?_⟩
      have hfirst : fs₁.node? k = some .directory ↔
          fs.node? k = some .directory ∨ k <+: place a ∧ k ≠ place a := by
        rw [hnode]
        by_cases hk : k = place a
        · simp [hk, hfree]
        · by_cases hprefix : k <+: place a <;> simp [hk, hprefix]
      rw [hfirst, or_assoc]
      simp

/-- Files that are removed are gone, and no other file changes. -/
theorem applyAll_remove {ls : List Location} (h : ∀ l ∈ ls, l ≠ [] ∧ ∀ p ∈ l, IsName p)
    (happly : Edit.applyAll fs (ls.map fun l => .remove l.path) = (fs', none)) (k : Location) :
    fs'.file? k = if k ∈ ls then none else fs.file? k := by
  induction ls generalizing fs with
  | nil => cases happly; rfl
  | cons l ls ih =>
    obtain ⟨⟨hne, hname⟩, hls⟩ := List.forall_mem_cons.1 h
    obtain ⟨fs₁, hremove, happly⟩ := Edit.applyAll_cons_eq_none_iff.1 happly
    rw [Edit.apply] at hremove
    split at hremove
    next fs₂ hfs₂ =>
      cases hremove
      obtain ⟨-, -, -, rfl⟩ := (remove?_path_eq_some_iff hne hname).1 hfs₂
      rw [ih hls happly, file?_erase hne]
      by_cases hk : k = l <;> simp [hk]
    · cases hremove

/-- Directories stay when files are removed. -/
theorem directory_applyAll_remove {ls : List Location} (h : ∀ l ∈ ls, l ≠ [] ∧ ∀ p ∈ l, IsName p)
    (happly : Edit.applyAll fs (ls.map fun l => .remove l.path) = (fs', none)) (k : Location) :
    fs'.node? k = some .directory ↔ fs.node? k = some .directory := by
  induction ls generalizing fs with
  | nil => cases happly; exact Iff.rfl
  | cons l ls ih =>
    obtain ⟨⟨hne, hname⟩, hls⟩ := List.forall_mem_cons.1 h
    obtain ⟨fs₁, hremove, happly⟩ := Edit.applyAll_cons_eq_none_iff.1 happly
    rw [Edit.apply] at hremove
    split at hremove
    next fs₂ hfs₂ =>
      cases hremove
      obtain ⟨-, -, ⟨content, hfile⟩, rfl⟩ := (remove?_path_eq_some_iff hne hname).1 hfs₂
      rw [ih hls happly, node?_erase fs hne]
      by_cases hk : k = l
      · simp [hk, hfile]
      · rw [if_neg hk]
    · cases hremove

/-- Different files can be removed. -/
theorem applyAll_remove_of_file {ls : List Location} (hd : ls.Nodup)
    (h : ∀ l ∈ ls, l.IsProper ∧ fs.IsOpen l ∧ fs.file? l ≠ none) :
    ∃ fs', Edit.applyAll fs (ls.map fun l => .remove l.path) = (fs', none) := by
  induction ls generalizing fs with
  | nil => exact ⟨fs, rfl⟩
  | cons l ls ih =>
    obtain ⟨⟨hl, hopen, hfile⟩, hls⟩ := List.forall_mem_cons.1 h
    obtain ⟨hnotMem, hd⟩ := List.nodup_cons.1 hd
    obtain ⟨content, hcontent⟩ := Option.ne_none_iff_exists'.1 hfile
    rw [file?_eq_some_iff] at hcontent
    have hne : l ≠ [] := by
      rintro rfl
      cases hcontent
    have hremove := (remove?_path_eq_some_iff hne hl.name).2 ⟨hl, hopen, ⟨content, hcontent⟩, rfl⟩
    have hrest : ∀ l' ∈ ls, l'.IsProper ∧ (fs.erase l).IsOpen l' ∧ (fs.erase l).file? l' ≠ none := by
      intro l' hl'
      obtain ⟨hproper, hopen', hfile'⟩ := hls l' hl'
      refine ⟨hproper, fun k hk hkne => ?_, ?_⟩
      · rw [node?_erase fs hne, if_neg ?_]
        · exact hopen' k hk hkne
        · rintro rfl
          have := hopen' k hk hkne
          rw [hcontent] at this
          cases this
      · rw [file?_erase hne, if_neg (ne_of_mem_of_not_mem hl' hnotMem)]
        exact hfile'
    obtain ⟨fs', happly⟩ := ih hd hrest
    refine ⟨fs', Edit.applyAll_cons_eq_none_iff.2 ⟨fs.erase l, ?_, happly⟩⟩
    rw [Edit.apply, hremove]

end Migration

end

end PackageMigration
