import PackageMigration.Proofs.FileSystem.Directories
import PackageMigration.Proofs.FileSystem.Edit
/-
  Files by any path: where they are found, and where they are put.

  * `Placeable`: a path at which there is a place for a file.
  * `create?`, `rename?`: a file under a new name, and a file that is moved.

  Main statements: `read?_eq_some_iff`, `reach?_of_place?` (a file that is put in place is found there),
  `erase_set`, `rename?_set` (a new file leaves nothing behind).
-/
namespace PackageMigration.FileSystem

open PackageMigration.Path (IsName)

variable {fs fs' : FileSystem} {path content : Bytes} {t : Location}

/-! ## Files that are found -/

theorem read?_eq_some_iff : fs.read? path = some content ↔
    Path.isUsable path ∧ path ≠ [] ∧
      fs.walk? (fs.start path) (Bytes.splitOn Byte.slash path) = .ok (fs.locationOf path) ∧
        fs.file? (fs.locationOf path) = some content := by
  have hfind : fs.read? path = some content ↔ fs.find? path = some (.file content) := by
    unfold read?
    split
    next new h => simp [h]
    next h => exact iff_of_false nofun fun hf => h content hf
  rw [hfind, find?, Option.bind_eq_some_iff]
  simp only [locate?, Option.ite_none_right_eq_some, reach?_eq_some_iff, file?_eq_some_iff]
  constructor
  · rintro ⟨l, ⟨hu, hpath, hwalk, -⟩, hnode⟩
    obtain rfl := eq_locationOf_of_walk? hwalk
    exact ⟨hu, hpath, hwalk, hnode⟩
  · rintro ⟨hu, hpath, hwalk, hnode⟩
    exact ⟨_, ⟨hu, hpath, hwalk, by simp [hnode]⟩, hnode⟩

theorem sameFile_iff {a b : Bytes} :
    fs.sameFile a b ↔ ∃ l, fs.resolve? a = some l ∧ fs.resolve? b = some l := by
  unfold sameFile
  cases fs.resolve? a with
  | none => simp
  | some l =>
    cases fs.resolve? b with
    | none => simp
    | some k => simpa using eq_comm

/-! ## Files that are put in place -/

/-- There is a place for a file, whatever it holds. -/
def Placeable (fs : FileSystem) (path : Bytes) : Prop := ∃ fs', fs.place? path [] = some fs'

theorem placeable_iff (content : Bytes) :
    fs.Placeable path ↔ ∃ fs', fs.place? path content = some fs' := by
  simp [Placeable, place?_eq_some_iff]

theorem directory_set (ht : t ≠ []) (hdir : fs.node? t ≠ some .directory) {n : Node} {k : Location}
    (hk : fs.node? k = some .directory) : (fs.set t n).node? k = some .directory := by
  rw [node?_set fs ht, if_neg, hk]
  rintro rfl
  exact hdir hk

theorem lastPart_ne_nil (hslash : path.getLast? ≠ some Byte.slash) (hpath : path ≠ []) :
    Bytes.lastPart Byte.slash path ≠ [] := by
  intro hlast
  obtain ⟨-, rfl | ⟨front, rfl⟩⟩ := Bytes.lastPart_eq_iff.1 hlast
  · exact hpath rfl
  · exact hslash List.getLast?_concat

/-- **A file that is put in place is found there**, and nothing else changes. -/
theorem reach?_of_place? (h : fs.place? path content = some fs') :
    fs'.reach? path = some (fs.locationOf path) ∧ fs.node? (fs.locationOf path) ≠ some .directory ∧
      ∀ k, fs'.node? k = if k = fs.locationOf path then some (.file content) else fs.node? k := by
  obtain ⟨hslash, l, hsite, hl, rfl⟩ := place?_eq_some_iff.1 h
  obtain rfl := eq_locationOf_of_site? hsite
  have hne := ne_nil_of_site? hsite
  have hset := node?_set fs hne (.file content)
  have hpath : path ≠ [] := by
    rintro rfl
    cases hsite
  refine ⟨reach?_eq_some_iff.2 ⟨hpath, ?_, by simp [hset]⟩, hl, hset⟩
  obtain ⟨-, front, last, rest, k, hsplit, hrest, hname, hlength, hwalk, hnode, hk⟩ :=
    site?_eq_ok_iff.1 hsite
  obtain rfl : rest = [] := by
    by_contra hrest'
    have hlast := Bytes.getLast?_splitOn Byte.slash path
    rw [hsplit, List.getLast?_append_of_ne_nil _ (List.cons_ne_nil _ _),
      List.getLast?_cons_of_ne_nil hrest'] at hlast
    exact lastPart_ne_nil hslash hpath (hrest _ (List.mem_of_getLast? hlast))
  -- the way to the file leads through directories, and none of them is replaced
  rw [hsplit, walk?_append_eq_ok_iff]
  refine ⟨k, walk?_mono (fun _ => directory_set hne hl) hwalk,
    walk?_cons_eq_ok_iff.2 ⟨directory_set hne hl hnode, hlength, ?_⟩⟩
  rw [step_of_isName k hname, ← hk]
  rfl

/-! ## Files that stand for a while -/

/-- Where a new file of a name stands in a directory, if it can be made. -/
def create? (fs : FileSystem) (directory name : Bytes) : Option Location :=
  let t := fs.locationOf directory ++ [name]
  if fs.isDirectory directory ∧ fs.hasRoom directory name.length ∧ fs.node? t = none then some t
  else none

/-- The file system with a file under another path, where it may take the place of a file. -/
def rename? (fs : FileSystem) (t : Location) (path : Bytes) : Option FileSystem :=
  (fs.file? t).bind fun content => (fs.erase t).place? path content

theorem create?_eq {directory name : Bytes} (h : fs.isDirectory directory)
    (hfree : fs.node? (fs.locationOf directory ++ [name]) = none) :
    fs.create? directory name =
      if fs.hasRoom directory name.length then some (fs.locationOf directory ++ [name]) else none := by
  simp [create?, h, hfree]

theorem set_set (fs : FileSystem) (t : Location) (n n' : Node) : (fs.set t n).set t n' = fs.set t n' := by
  simp [set, List.filter_filter]

section
variable (ht : t ≠ []) (hfree : fs.node? t = none)
include ht hfree

theorem erase_set (n : Node) : (fs.set t n).erase t = fs := by
  rw [node?, if_neg ht, List.lookup_eq_none_iff] at hfree
  have hall : fs.nodes.filter (fun m => m.1 != t) = fs.nodes :=
    List.filter_eq_self.2 fun m hm => by rw [bne_comm]; exact hfree m hm
  simp [set, erase, hall]

theorem rename?_set (content : Bytes) :
    (fs.set t (.file content)).rename? t path = fs.place? path content := by
  rw [rename?, file?, node?_set fs ht, if_pos rfl, Option.bind_some, erase_set ht hfree]

theorem isDirectory_set (n : Node) (h : fs.isDirectory path) : (fs.set t n).isDirectory path :=
  have hhere : (fs.set t n).here = fs.here := rfl
  isDirectory_mono hhere (fun _ => directory_set ht (by simp [hfree])) h

/-- A file is found beside a new one. -/
theorem read?_set (n : Node) (h : fs.read? path = some content) :
    (fs.set t n).read? path = some content := by
  obtain ⟨hu, hpath, hwalk, hfile⟩ := read?_eq_some_iff.1 h
  refine read?_eq_some_iff.2
    ⟨hu, hpath, walk?_mono (fun _ => directory_set ht (by simp [hfree])) hwalk, ?_⟩
  have hne : fs.locationOf path ≠ t := by
    rintro rfl
    rw [file?_eq_some_iff, hfree] at hfile
    cases hfile
  rw [← hfile]
  exact file?_congr ((node?_set fs ht n _).trans (if_neg hne))

end

end PackageMigration.FileSystem
