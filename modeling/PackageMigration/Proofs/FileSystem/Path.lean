import PackageMigration.Proofs.Bytes.Cut
import PackageMigration.Proofs.FileSystem.Walk
/-
  Paths as they are written.

  * `Path.names`: the parts of a path that are not idle.

  Main statements: `names_join`, `names_parent?`, `fileName?_eq` (what the names of a path say about
  its directory, its parent and its last part).
-/
namespace PackageMigration

namespace Path

/-- The parts of a path that lead somewhere. -/
def names (path : Bytes) : List Bytes := (Bytes.splitOn Byte.slash path).filter fun p => !isIdle p

theorem filter_dropWhile_isIdle (parts : List Bytes) :
    (parts.dropWhile isIdle).filter (fun p => !isIdle p) = parts.filter fun p => !isIdle p := by
  induction parts with
  | nil => rfl
  | cons p parts ih =>
    rw [List.dropWhile_cons]
    by_cases hp : isIdle p
    · rw [if_pos hp, ih, List.filter_cons_of_neg (by simp [hp])]
    · rw [if_neg hp]

theorem names_slash_cons (s : Bytes) : names (Byte.slash :: s) = names s := by
  rw [names, Bytes.splitOn_cons, if_pos rfl, List.filter_cons_of_neg (by decide)]
  rfl

/-- A full stop in front of a slash, or alone, is an idle part. -/
theorem names_dot_cons {s : Bytes} {parts : List Bytes} (h : Bytes.splitOn Byte.slash s = [] :: parts) :
    names (Byte.dot :: s) = names s := by
  rw [names, names, Bytes.splitOn_cons, if_neg (by decide), h, consPart,
    List.filter_cons_of_neg (by decide), List.filter_cons_of_neg (by decide)]

theorem names_intercalate {parts : List Bytes} (h : ∀ p ∈ parts, Byte.slash ∉ p) :
    names ([Byte.slash].intercalate parts) = parts.filter fun p => !isIdle p := by
  by_cases hnil : parts = []
  · subst hnil
    rfl
  · rw [names, Bytes.splitOn_intercalate hnil h]

/-- The names of an absolute path are those of its location. -/
theorem names_path {l : Location} (h : ∀ p ∈ l, IsName p) : names l.path = l := by
  rw [Location.path_eq, names_slash_cons, names_intercalate fun p hp => (h p hp).slash_notMem,
    List.filter_eq_self]
  exact fun p hp => by rw [(h p hp).isIdle, Bool.not_false]

/-- A path begins with its anchor, and behind it stand its names. -/
theorem anchor_cases (path : Bytes) :
    (anchor path = [] ∧ path.head? ≠ some Byte.slash) ∨
      (∃ s, path = Byte.slash :: s ∧ anchor path = [Byte.slash]) ∨
        ∃ s parts, path = Byte.dot :: s ∧ anchor path = here ∧
          Bytes.splitOn Byte.slash s = [] :: parts := by
  cases path with
  | nil => exact .inl ⟨rfl, nofun⟩
  | cons b s =>
    by_cases hb : b = Byte.slash
    · subst hb
      refine .inr (.inl ⟨s, rfl, ?_⟩)
      rw [anchor, Bytes.splitOn_cons, if_pos rfl]
      rfl
    · obtain ⟨p, parts, hparts⟩ := List.exists_cons_of_ne_nil (Bytes.splitOn_ne_nil Byte.slash s)
      have hsplit : Bytes.splitOn Byte.slash (b :: s) = (b :: p) :: parts := by
        rw [Bytes.splitOn_cons, if_neg hb, hparts, consPart]
      have hhead : (b :: s).head? ≠ some Byte.slash := by simpa using hb
      rw [anchor, hsplit]
      by_cases hhere : b :: p = here
      · obtain ⟨rfl, rfl⟩ := List.cons.inj hhere
        exact .inr (.inr ⟨s, parts, rfl, if_pos rfl, hparts⟩)
      · exact .inl ⟨by simp [hhere, hb], hhead⟩

theorem names_eq_partsBack (path : Bytes) :
    names path = (partsBack path).reverse.filter fun p => !isIdle p := by
  rw [partsBack, List.filter_reverse, filter_dropWhile_isIdle, ← List.filter_reverse,
    List.reverse_reverse]
  change _ = names (path.drop (anchor path).length)
  rcases anchor_cases path with ⟨ha, -⟩ | ⟨s, rfl, ha⟩ | ⟨s, parts, rfl, ha, hs⟩
  · rw [ha]
    rfl
  · rw [ha]
    exact names_slash_cons s
  · rw [ha]
    exact names_dot_cons hs

theorem intercalate_prefix (parts more : List Bytes) :
    [Byte.slash].intercalate parts <+: [Byte.slash].intercalate (parts ++ more) := by
  by_cases hnil : parts = []
  · rw [hnil]
    exact List.nil_prefix
  · have hpath := Location.path_eq (parts ++ more)
    rw [Location.path, if_neg (by simp [hnil]), List.flatMap_append] at hpath
    have hparts := Location.path_eq parts
    rw [Location.path, if_neg hnil] at hparts
    rw [hparts, List.cons_append] at hpath
    exact ⟨_, (List.cons.inj hpath).2⟩

/-- Behind the anchor of a path the first of its parts make a path with the same anchor. -/
theorem names_anchor_append {path : Bytes} {parts : List Bytes}
    (h : parts <+: Bytes.splitOn Byte.slash (path.drop (anchor path).length)) :
    names (anchor path ++ [Byte.slash].intercalate parts) = parts.filter (fun p => !isIdle p) ∧
      ((anchor path ++ [Byte.slash].intercalate parts).head? = some Byte.slash ↔
        path.head? = some Byte.slash) := by
  obtain ⟨more, hmore⟩ := h
  have hslash : ∀ p ∈ parts, Byte.slash ∉ p := fun p hp =>
    Bytes.notMem_of_mem_splitOn (hmore ▸ List.mem_append_left _ hp)
  have hnames := names_intercalate hslash
  rcases anchor_cases path with ⟨ha, hhead⟩ | ⟨s, rfl, ha⟩ | ⟨s, rest, rfl, ha, hs⟩
  · refine ⟨by rw [ha]; exact hnames, iff_of_false (fun hfirst => hhead ?_) hhead⟩
    have hprefix := intercalate_prefix parts more
    rw [hmore, Bytes.intercalate_splitOn, ha] at hprefix
    rw [ha] at hfirst
    obtain ⟨s, hs⟩ := List.head?_eq_some_iff.1 hfirst
    rw [List.nil_append] at hs
    rw [hs] at hprefix
    obtain ⟨s', hs'⟩ := hprefix
    exact List.head?_eq_some_iff.2 ⟨s ++ s', hs'.symm⟩
  · rw [ha]
    exact ⟨(names_slash_cons _).trans hnames, by simp⟩
  · rw [ha] at hmore ⊢
    have hsplit : ∃ rest', Bytes.splitOn Byte.slash ([Byte.slash].intercalate parts) = [] :: rest' := by
      cases parts with
      | nil => exact ⟨[], rfl⟩
      | cons p parts =>
        rw [show (Byte.dot :: s).drop here.length = s from rfl, hs] at hmore
        obtain ⟨rfl, -⟩ := List.cons.inj hmore
        exact ⟨parts, Bytes.splitOn_intercalate (by simp) hslash⟩
    obtain ⟨rest', hrest'⟩ := hsplit
    exact ⟨(names_dot_cons hrest').trans hnames, by simp [here, show Byte.dot ≠ Byte.slash by decide]⟩

/-- The parent of a path has one name less and starts where the path starts. -/
theorem names_parent? {path parent : Bytes} (h : parent? path = some parent) :
    names parent = (names path).dropLast ∧
      (parent.head? = some Byte.slash ↔ path.head? = some Byte.slash) := by
  unfold parent? at h
  split at h
  next last rest hback =>
    obtain rfl := Option.some.inj h
    obtain ⟨front, hfront, -, hlast⟩ := dropWhile_eq_cons_iff.1 hback
    have hprefix : (rest.dropWhile isIdle).reverse <+:
        Bytes.splitOn Byte.slash (path.drop (anchor path).length) := by
      rw [← List.reverse_suffix, List.reverse_reverse, hfront]
      exact (List.dropWhile_suffix isIdle).trans
        ((List.suffix_cons last rest).trans (List.suffix_append front _))
    have hcore : (rest.dropWhile isIdle).reverse.filter (fun p => !isIdle p) = (names path).dropLast := by
      rw [names_eq_partsBack, hback, List.reverse_cons, List.filter_append,
        List.filter_cons_of_pos (by simp [hlast]), List.filter_nil, List.dropLast_concat,
        List.filter_reverse, filter_dropWhile_isIdle, List.filter_reverse]
    exact hcore ▸ names_anchor_append hprefix
  next hback =>
    split at h
    next ha =>
      obtain rfl := Option.some.inj h
      rw [names_eq_partsBack path, hback]
      refine ⟨rfl, iff_of_false nofun fun hslash => ?_⟩
      obtain ⟨s, rfl⟩ := List.head?_eq_some_iff.1 hslash
      rw [anchor, Bytes.splitOn_cons, if_pos rfl] at ha
      cases ha
    · cases h

/-! ## Paths in directories -/

theorem names_append_slash (s s' : Bytes) : names (s ++ Byte.slash :: s') = names s ++ names s' := by
  rw [names, Bytes.splitOn_append, List.filter_append]
  rfl

/-- The names of a path in a directory stand behind those of the directory. -/
theorem names_join (directory name : Bytes) :
    names (join directory name) = names directory ++ names name := by
  unfold join
  split
  next h =>
    rcases h with rfl | h
    · rfl
    · obtain ⟨front, rfl⟩ := List.getLast?_eq_some_iff.1 h
      have hfront : names (front ++ [Byte.slash]) = names front := by
        rw [names_append_slash]
        exact List.append_nil _
      rw [hfront, List.append_assoc, List.singleton_append, names_append_slash]
  · exact names_append_slash directory name

theorem head?_partsBack (path : Bytes) : (partsBack path).head? = (names path).getLast? := by
  rw [names_eq_partsBack]
  cases h : partsBack path with
  | nil => rfl
  | cons last rest =>
    obtain ⟨-, -, -, hlast⟩ := dropWhile_eq_cons_iff.1 h
    rw [List.reverse_cons, List.filter_append, List.filter_cons_of_pos (by simp [hlast]), List.filter_nil,
      List.getLast?_concat, List.head?_cons]

theorem fileName?_eq (path : Bytes) : fileName? path = (names path).getLast?.filter (· != above) := by
  rw [fileName?, head?_partsBack]

theorem fileName?_path {l : Location} {p : Bytes} (h : ∀ q ∈ l ++ [p], IsName q) :
    fileName? (Location.path (l ++ [p])) = some p := by
  rw [fileName?_eq, names_path h, List.getLast?_concat, Option.filter_eq_some_iff]
  exact ⟨rfl, by simpa using (h p (by simp)).ne_above⟩

theorem exists_parent? {path : Bytes} (h : names path ≠ []) : ∃ parent, parent? path = some parent := by
  unfold parent?
  cases hback : partsBack path with
  | nil => rw [names_eq_partsBack, hback] at h; exact absurd rfl h
  | cons => exact ⟨_, rfl⟩

/-- The last part of a path is the last of its names, unless it is idle. -/
theorem getLast?_names {path : Bytes} (h : isIdle (Bytes.lastPart Byte.slash path) = false) :
    (names path).getLast? = some (Bytes.lastPart Byte.slash path) := by
  obtain ⟨front, hfront⟩ := List.getLast?_eq_some_iff.1 (Bytes.getLast?_splitOn Byte.slash path)
  rw [names, hfront, List.filter_append, List.filter_cons_of_pos (by simp [h]), List.filter_nil,
    List.getLast?_concat]

end Path

end PackageMigration
