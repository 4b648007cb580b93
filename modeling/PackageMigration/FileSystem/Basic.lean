import PackageMigration.FileSystem.Path
/-
  File systems: files and directories by their location, and a working directory.

  * `Location`: the names that lead from the root to a node; `Location.path`: its absolute path.
  * `FileSystem`: `node?`, `set`, `erase`, and the nodes `below` a location in the order of a walk.

  Main statements: `node?_set`, `node?_erase`.
-/
namespace PackageMigration

/-- The names that lead from the root to a node. A name stands for a text, by its UTF-8 bytes. Names
that are no texts are not considered: a run sees another name in their place. -/
abbrev Location := List Bytes

/-- The absolute path of a location. -/
def Location.path (l : Location) : Bytes :=
  if l = [] then [Byte.slash] else l.flatMap (Byte.slash :: ·)

/-- What stands at a location. -/
inductive Node where
  | file (content : Bytes)
  | directory
  deriving DecidableEq, Repr

/-- A file system. The root is a directory and needs no node. -/
structure FileSystem where
  nodes : List (Location × Node)
  /-- The working directory, where relative paths start. -/
  here : Location
  deriving DecidableEq, Repr

namespace FileSystem

/-- What stands at a location. -/
def node? (fs : FileSystem) (l : Location) : Option Node :=
  if l = [] then some .directory else fs.nodes.lookup l

/-- The file system with another node at a location. -/
def set (fs : FileSystem) (l : Location) (n : Node) : FileSystem :=
  { fs with nodes := (l, n) :: fs.nodes.filter fun m => m.1 != l }

/-- The file system without the node at a location. -/
def erase (fs : FileSystem) (l : Location) : FileSystem :=
  { fs with nodes := fs.nodes.filter fun m => m.1 != l }

/-- The nodes below a location, each directory right before what is in it and names in the order of
their bytes. -/
def below (fs : FileSystem) (root : Location) : List (Location × Node) :=
  (fs.nodes.filter fun m => root.isPrefixOf m.1 && m.1 != root).mergeSort fun a b =>
    (compare a.1 b.1).isLE

theorem lookup_filter (p : Location → Bool) (l : Location) (nodes : List (Location × Node)) :
    (nodes.filter fun m => p m.1).lookup l = if p l then nodes.lookup l else none := by
  induction nodes with
  | nil => simp
  | cons m nodes ih =>
    obtain ⟨k, n⟩ := m
    rw [List.filter_cons, List.lookup_cons]
    by_cases hk : l = k
    · subst hk
      cases hp : p l
      · rw [if_neg (by simp), ih, hp]; rfl
      · simp
    · rw [beq_eq_false_iff_ne.2 hk]
      cases hp : p k
      · rw [if_neg (by simp), ih]
      · rw [if_pos (by simp), List.lookup_cons, beq_eq_false_iff_ne.2 hk, ih]

theorem node?_set (fs : FileSystem) {l : Location} (hl : l ≠ []) (n : Node) (k : Location) :
    (fs.set l n).node? k = if k = l then some n else fs.node? k := by
  unfold node? set
  by_cases hk : k = l
  · subst hk; simp [hl]
  · simp [hk, List.lookup_cons, beq_eq_false_iff_ne.2 hk, lookup_filter (· != l)]

theorem node?_erase (fs : FileSystem) {l : Location} (hl : l ≠ []) (k : Location) :
    (fs.erase l).node? k = if k = l then none else fs.node? k := by
  unfold node? erase
  by_cases hk : k = l
  · subst hk; simp [hl, lookup_filter (· != k)]
  · simp [hk, lookup_filter (· != l)]

end FileSystem

end PackageMigration
