import Mathlib.Data.List.Infix
import PackageMigration.FileSystem.Lookup
import PackageMigration.Proofs.Bytes.Split
/-
  Where paths lead in a file system, apart from what stands there.

  * `Path.IsName`: a part of a path that leads to a node of its own.
  * `follow`: the location that parts lead to if all of them are there.
  * `IsOpen`: every node above a location is a directory.
  * `locationOf`: where a path leads if all of its parts are there.

  Main statements: `walk?_eq_ok_iff`, `site?_path_eq_ok_iff` (where the absolute path of a location
  leads), `eq_locationOf_of_site?`, `resolve?_eq_some`, `isDirectory_mono` (what is found is found in a
  file system with more directories).
-/
namespace PackageMigration

/-- A part of a path that is neither idle nor `..`. -/
structure Path.IsName (part : Bytes) : Prop where
  ne_nil : part ≠ []
  ne_here : part ≠ here
  ne_above : part ≠ above
  slash_notMem : Byte.slash ∉ part

instance (part : Bytes) : Decidable (Path.IsName part) :=
  decidable_of_iff (part ≠ [] ∧ part ≠ Path.here ∧ part ≠ Path.above ∧ Byte.slash ∉ part)
    ⟨fun h => ⟨h.1, h.2.1, h.2.2.1, h.2.2.2⟩,
      fun h => ⟨h.ne_nil, h.ne_here, h.ne_above, h.slash_notMem⟩⟩

theorem Path.IsName.isIdle {part : Bytes} (h : IsName part) : Path.isIdle part = false := by
  simp [Path.isIdle, h.ne_nil, h.ne_here]

theorem Path.length_le_of_isIdle {part : Bytes} (h : Path.isIdle part) :
    part.length ≤ longestPart := by
  simp only [Path.isIdle, Bool.or_eq_true, beq_iff_eq] at h
  rcases h with rfl | rfl <;> decide

theorem Location.path_eq (l : Location) : l.path = Byte.slash :: [Byte.slash].intercalate l := by
  unfold path
  split
  next h => rw [h]; rfl
  next h =>
    induction l with
    | nil => exact absurd rfl h
    | cons p l ih =>
      rw [List.flatMap_cons]
      cases l with
      | nil => simp
      | cons q l =>
        rw [ih (List.cons_ne_nil q l), List.intercalate_cons_cons]
        simp

theorem Path.isUsable_iff {path : Bytes} : isUsable path ↔ path.length ≤ longest ∧ 0 ∉ path := by
  simp [isUsable]

/-- The absolute path of a location is short enough, as a whole and in its parts. -/
structure Location.IsShort (l : Location) : Prop where
  short : ∀ p ∈ l, p.length ≤ Path.longestPart
  usable : Path.isUsable l.path

instance (l : Location) : Decidable l.IsShort :=
  decidable_of_iff ((∀ p ∈ l, p.length ≤ Path.longestPart) ∧ Path.isUsable l.path)
    ⟨fun h => ⟨h.1, h.2⟩, fun h => ⟨h.short, h.usable⟩⟩

/-- A location whose absolute path can be looked up. -/
structure Location.IsProper (l : Location) : Prop extends l.IsShort where
  name : ∀ p ∈ l, Path.IsName p

theorem Location.IsProper.of_prefix {l k : Location} (h : l.IsProper) (hk : k <+: l) : k.IsProper := by
  refine ⟨⟨fun p hp => h.short p (hk.subset hp), ?_⟩, fun p hp => h.name p (hk.subset hp)⟩
  by_cases hnil : k = []
  · subst hnil
    decide
  · obtain ⟨rest, rfl⟩ := hk
    have hpath : Location.path (k ++ rest) = k.path ++ rest.flatMap (Byte.slash :: ·) := by
      rw [path, path, if_neg hnil, if_neg (by simp [hnil]), List.flatMap_append]
    have hu := h.usable
    rw [hpath, Path.isUsable_iff, List.length_append, List.mem_append, not_or] at hu
    exact Path.isUsable_iff.2 ⟨by omega, hu.2.1⟩

theorem forall_append_cons_iff {α : Type} {P : List α → α → Prop} {a : α} {l : List α} :
    (∀ front b rest, a :: l = front ++ b :: rest → P front b) ↔
      P [] a ∧ ∀ front b rest, l = front ++ b :: rest → P (a :: front) b := by
  constructor
  · intro h
    exact ⟨h [] a l rfl, fun front b rest hl => h (a :: front) b rest (by rw [hl]; rfl)⟩
  · rintro ⟨ha, h⟩ (_ | ⟨c, front⟩) b rest hl
    · obtain ⟨rfl, -⟩ := List.cons.inj hl
      exact ha
    · obtain ⟨rfl, hrest⟩ := List.cons.inj hl
      exact h front b rest hrest

theorem exists_eq_concat {α : Type} {l : List α} (h : l ≠ []) : ∃ l' a, l = l' ++ [a] :=
  ⟨_, _, (List.dropLast_append_getLast h).symm⟩

theorem prefix_ne_concat {α : Type} {k l : List α} (h : k <+: l) (a : α) : k ≠ l ++ [a] := by
  rintro rfl
  have hlength := h.length_le
  rw [List.length_append, List.length_singleton] at hlength
  omega

theorem dropWhile_eq_cons_iff {α : Type} {p : α → Bool} {a : α} {l rest : List α} :
    l.dropWhile p = a :: rest ↔ ∃ front, l = front ++ a :: rest ∧ (∀ b ∈ front, p b) ∧ p a = false := by
  induction l with
  | nil => simp
  | cons c l ih =>
    rw [List.dropWhile_cons]
    by_cases hc : p c
    · rw [if_pos hc, ih]
      constructor
      · rintro ⟨front, rfl, hfront, ha⟩
        exact ⟨c :: front, rfl, List.forall_mem_cons.2 ⟨hc, hfront⟩, ha⟩
      · rintro ⟨_ | ⟨d, front⟩, hl, hfront, ha⟩
        · obtain ⟨rfl, -⟩ := List.cons.inj hl
          exact absurd hc (by simp [ha])
        · obtain ⟨rfl, rfl⟩ := List.cons.inj hl
          exact ⟨front, rfl, (List.forall_mem_cons.1 hfront).2, ha⟩
    · rw [if_neg hc]
      constructor
      · intro hl
        obtain ⟨rfl, rfl⟩ := List.cons.inj hl
        exact ⟨[], rfl, nofun, by simpa using hc⟩
      · rintro ⟨_ | ⟨d, front⟩, hl, hfront, ha⟩
        · exact hl
        · obtain ⟨rfl, -⟩ := List.cons.inj hl
          exact absurd (hfront c List.mem_cons_self) hc

/-- The last item that `p` does not hold of, and those in front of it. -/
theorem reverse_dropWhile_eq_cons_iff {α : Type} {p : α → Bool} {a : α} {l front : List α} :
    l.reverse.dropWhile p = a :: front ↔
      ∃ rest, l = front.reverse ++ a :: rest ∧ (∀ b ∈ rest, p b) ∧ p a = false := by
  rw [dropWhile_eq_cons_iff]
  constructor
  · rintro ⟨rest, hl, hrest, ha⟩
    refine ⟨rest.reverse, ?_, by simpa using hrest, ha⟩
    rw [← List.reverse_reverse l, hl]
    simp
  · rintro ⟨rest, rfl, hrest, ha⟩
    exact ⟨rest.reverse, by simp, by simpa using hrest, ha⟩

namespace FileSystem

open PackageMigration.Path (IsName)

/-- The location that a part leads to from a directory. -/
def step (l : Location) (part : Bytes) : Location :=
  if Path.isIdle part then l else if part = Path.above then l.dropLast else l ++ [part]

/-- The location that parts lead to from a location if all of them are there. -/
def follow (l : Location) (parts : List Bytes) : Location := parts.foldl step l

theorem follow_append (l : Location) (ps qs : List Bytes) :
    follow l (ps ++ qs) = follow (follow l ps) qs :=
  List.foldl_append

theorem step_of_isName (l : Location) {p : Bytes} (h : IsName p) : step l p = l ++ [p] := by
  rw [step, h.isIdle, if_neg Bool.false_ne_true, if_neg h.ne_above]

theorem follow_of_isName {l : Location} {ps : List Bytes} (h : ∀ p ∈ ps, IsName p) :
    follow l ps = l ++ ps := by
  induction ps generalizing l with
  | nil => exact (List.append_nil l).symm
  | cons p ps ih =>
    obtain ⟨hp, hps⟩ := List.forall_mem_cons.1 h
    have hcons : follow l (p :: ps) = follow (step l p) ps := rfl
    rw [hcons, ih hps, step_of_isName l hp, List.append_assoc, List.singleton_append]

variable {fs : FileSystem}

/-! ## Walks -/

theorem walk?_cons_eq_ok_iff {l k : Location} {p : Bytes} {ps : List Bytes} :
    fs.walk? l (p :: ps) = .ok k ↔
      fs.node? l = some .directory ∧ p.length ≤ Path.longestPart ∧ fs.walk? (step l p) ps = .ok k := by
  rw [walk?]
  cases hn : fs.node? l with
  | none => simp
  | some n =>
    cases n with
    | file => simp
    | directory =>
      dsimp only
      unfold step
      split
      next hidle => simp [Path.length_le_of_isIdle hidle]
      split
      next habove => simp [habove, show Path.above.length ≤ Path.longestPart by decide]
      split
      next hlong => simp [Nat.not_le_of_lt hlong]
      next hlong => simp [Nat.le_of_not_lt hlong]

/-- A walk succeeds if there is a directory in front of every part and no part is too long. -/
theorem walk?_eq_ok_iff {l k : Location} {ps : List Bytes} :
    fs.walk? l ps = .ok k ↔ k = follow l ps ∧ ∀ front part rest, ps = front ++ part :: rest →
      fs.node? (follow l front) = some .directory ∧ part.length ≤ Path.longestPart := by
  induction ps generalizing l with
  | nil =>
    have hnil : ∀ front (part : Bytes) rest, [] ≠ front ++ part :: rest := by simp
    rw [walk?, Except.ok.injEq, eq_comm]
    exact ⟨fun h => ⟨h, fun front part rest hps => absurd hps (hnil front part rest)⟩, fun h => h.1⟩
  | cons p ps ih =>
    have hcons : ∀ front, follow l (p :: front) = follow (step l p) front := fun _ => rfl
    rw [walk?_cons_eq_ok_iff, ih, forall_append_cons_iff (P := fun front part =>
      fs.node? (follow l front) = some .directory ∧ part.length ≤ Path.longestPart)]
    simp only [hcons]
    exact ⟨fun ⟨hn, hl, hk, h⟩ => ⟨hk, ⟨hn, hl⟩, h⟩, fun ⟨hk, ⟨hn, hl⟩, h⟩ => ⟨hn, hl, hk, h⟩⟩

/-- A walk goes on where the first parts of it lead. -/
theorem walk?_append_eq_ok_iff {l k : Location} {ps qs : List Bytes} :
    fs.walk? l (ps ++ qs) = .ok k ↔ ∃ j, fs.walk? l ps = .ok j ∧ fs.walk? j qs = .ok k := by
  induction ps generalizing l with
  | nil => simp [walk?]
  | cons p ps ih =>
    rw [List.cons_append, walk?_cons_eq_ok_iff, ih]
    simp only [walk?_cons_eq_ok_iff]
    constructor
    · rintro ⟨hn, hp, j, hj, hk⟩
      exact ⟨j, ⟨hn, hp, hj⟩, hk⟩
    · rintro ⟨j, ⟨hn, hp, hj⟩, hk⟩
      exact ⟨hn, hp, j, hj, hk⟩

/-- Empty parts lead nowhere else. -/
theorem walk?_of_forall_nil {l : Location} {ps : List Bytes} (h : ∀ p ∈ ps, p = [])
    (hl : fs.node? l = some .directory) : fs.walk? l ps = .ok l := by
  induction ps with
  | nil => rfl
  | cons p ps ih =>
    obtain ⟨rfl, hps⟩ := List.forall_mem_cons.1 h
    exact walk?_cons_eq_ok_iff.2 ⟨hl, Nat.zero_le _, ih hps⟩

/-- A walk that ends well does so in a file system with more directories. -/
theorem walk?_mono {fs' : FileSystem}
    (hgrown : ∀ k, fs.node? k = some .directory → fs'.node? k = some .directory) {l k : Location}
    {ps : List Bytes} (h : fs.walk? l ps = .ok k) : fs'.walk? l ps = .ok k := by
  obtain ⟨hk, hall⟩ := walk?_eq_ok_iff.1 h
  refine walk?_eq_ok_iff.2 ⟨hk, fun front part rest hps => ?_⟩
  exact ⟨hgrown _ (hall front part rest hps).1, (hall front part rest hps).2⟩

/-- A walk along names that nothing is in the way of ends well or misses a directory. -/
theorem walk?_eq_ok_or_missing {l : Location} {ps : List Bytes} (h : ∀ p ∈ ps, IsName p)
    (hlength : ∀ p ∈ ps, p.length ≤ Path.longestPart)
    (hfile : ∀ k, k <+: ps → ∀ content, fs.node? (l ++ k) ≠ some (.file content)) :
    fs.walk? l ps = .ok (l ++ ps) ∨ fs.walk? l ps = .error .missing := by
  induction ps generalizing l with
  | nil => exact .inl (by rw [walk?, List.append_nil])
  | cons p ps ih =>
    obtain ⟨hp, hps⟩ := List.forall_mem_cons.1 h
    obtain ⟨hlp, hlps⟩ := List.forall_mem_cons.1 hlength
    rw [walk?]
    cases hn : fs.node? l with
    | none => exact .inr rfl
    | some n =>
      cases n with
      | file content =>
        exact absurd ((List.append_nil l).symm ▸ hn) (hfile [] List.nil_prefix content)
      | directory =>
        dsimp only
        rw [hp.isIdle, if_neg Bool.false_ne_true, if_neg hp.ne_above,
          if_neg (Nat.not_lt_of_le hlp), List.append_cons l p ps]
        refine ih hps hlps fun k hk content => ?_
        rw [List.append_assoc]
        exact hfile (p :: k) (List.cons_prefix_cons.2 ⟨rfl, hk⟩) content

/-! ## Absolute paths of locations -/

/-- Every node above a location is a directory. -/
def IsOpen (fs : FileSystem) (l : Location) : Prop :=
  ∀ k, k <+: l → k ≠ l → fs.node? k = some .directory

theorem isOpen_concat_iff {l : Location} {p : Bytes} :
    fs.IsOpen (l ++ [p]) ↔ fs.IsOpen l ∧ fs.node? l = some .directory := by
  constructor
  · intro h
    exact ⟨fun k hk _ => h k (hk.trans (List.prefix_append l [p])) (prefix_ne_concat hk p),
      h l (List.prefix_append l [p]) (by simp)⟩
  · rintro ⟨h, hl⟩ k hk hne
    rcases List.prefix_concat_iff.1 hk with rfl | hk
    · exact absurd rfl hne
    · by_cases he : k = l
      · rw [he, hl]
      · exact h k hk he

theorem splitOn_path {l : Location} (hne : l ≠ []) (h : ∀ p ∈ l, IsName p) :
    Bytes.splitOn Byte.slash l.path = [] :: l := by
  rw [Location.path_eq, Bytes.splitOn_cons, if_pos rfl,
    Bytes.splitOn_intercalate hne fun p hp => (h p hp).slash_notMem]

theorem start_path (fs : FileSystem) (l : Location) : fs.start l.path = [] := by
  rw [start, Location.path_eq, List.head?_cons, if_pos rfl]

theorem walk?_path_eq_ok_iff {l k : Location} (h : ∀ p ∈ l, IsName p) :
    fs.walk? [] l = .ok k ↔ k = l ∧ fs.IsOpen l ∧ ∀ p ∈ l, p.length ≤ Path.longestPart := by
  rw [walk?_eq_ok_iff, follow_of_isName h, List.nil_append]
  have hfront : ∀ {front part rest}, l = front ++ part :: rest → follow [] front = front := by
    rintro front part rest rfl
    exact follow_of_isName fun p hp => h p (List.mem_append_left _ hp)
  refine and_congr_right fun _ => ⟨fun hall => ⟨fun k hk hne => ?_, fun p hp => ?_⟩, ?_⟩
  · obtain ⟨rest, rfl⟩ := hk
    cases rest with
    | nil => exact absurd (List.append_nil k).symm hne
    | cons p rest =>
      have := (hall k p rest rfl).1
      rwa [hfront rfl] at this
  · obtain ⟨front, rest, rfl⟩ := List.append_of_mem hp
    exact (hall front p rest rfl).2
  · rintro ⟨hopen, hlength⟩ front part rest hl
    rw [hfront hl]
    subst hl
    exact ⟨hopen front (List.prefix_append _ _) (by simp), hlength part (by simp)⟩

/-! ## Places for nodes -/

theorem entrance?_eq_ok_iff {path last : Bytes} {l : Location} :
    fs.entrance? path = .ok (l, last) ↔ Path.isUsable path ∧ ∃ front rest,
      Bytes.splitOn Byte.slash path = front ++ last :: rest ∧ (∀ p ∈ rest, p = []) ∧ last ≠ [] ∧
        fs.walk? (fs.start path) front = .ok l ∧ fs.node? l = some .directory := by
  have hlast : ∀ {front : List Bytes}, (Bytes.splitOn Byte.slash path).reverse.dropWhile (· == []) =
      last :: front.reverse ↔ ∃ rest, Bytes.splitOn Byte.slash path = front ++ last :: rest ∧
        (∀ p ∈ rest, p = []) ∧ last ≠ [] := by
    intro front
    rw [reverse_dropWhile_eq_cons_iff, List.reverse_reverse]
    simp only [beq_iff_eq, beq_eq_false_iff_ne]
  unfold entrance?
  cases hu : Path.isUsable path with
  | false => simp
  | true =>
    simp only [Bool.not_true, Bool.false_eq_true, if_false, true_and]
    constructor
    · intro h
      split at h
      · cases h
      next last' front hparts =>
        split at h
        · cases h
        next l' hwalk =>
          split at h
          · cases h
          · cases h
          next hnode =>
            cases h
            rw [← List.reverse_reverse front] at hparts
            obtain ⟨rest, hsplit, hrest, hne⟩ := hlast.1 hparts
            exact ⟨front.reverse, rest, hsplit, hrest, hne, hwalk, hnode⟩
    · rintro ⟨front, rest, hsplit, hrest, hne, hwalk, hnode⟩
      rw [hlast.2 ⟨rest, hsplit, hrest, hne⟩]
      simp only [List.reverse_reverse, hwalk, hnode]

theorem site?_eq_ok_iff {path : Bytes} {k : Location} :
    fs.site? path = .ok k ↔ Path.isUsable path ∧ ∃ front last rest l,
      Bytes.splitOn Byte.slash path = front ++ last :: rest ∧ (∀ p ∈ rest, p = []) ∧ IsName last ∧
        last.length ≤ Path.longestPart ∧ fs.walk? (fs.start path) front = .ok l ∧
        fs.node? l = some .directory ∧ k = l ++ [last] := by
  unfold site?
  constructor
  · intro h
    split at h
    · cases h
    next l last hentrance =>
      obtain ⟨hu, front, rest, hsplit, hrest, hne, hwalk, hnode⟩ := entrance?_eq_ok_iff.1 hentrance
      split at h
      · cases h
      next hname =>
        split at h
        · cases h
        next hlong =>
          cases h
          have hmem : last ∈ Bytes.splitOn Byte.slash path := by rw [hsplit]; simp
          have hslash : Byte.slash ∉ last := Bytes.notMem_of_mem_splitOn hmem
          rw [not_or] at hname
          exact ⟨hu, front, last, rest, l, hsplit, hrest, ⟨hne, hname.1, hname.2, hslash⟩,
            Nat.le_of_not_lt hlong, hwalk, hnode, rfl⟩
  · rintro ⟨hu, front, last, rest, l, hsplit, hrest, hname, hlength, hwalk, hnode, rfl⟩
    rw [entrance?_eq_ok_iff.2 ⟨hu, front, rest, hsplit, hrest, hname.ne_nil, hwalk, hnode⟩]
    dsimp only
    rw [if_neg (not_or.2 ⟨hname.ne_here, hname.ne_above⟩), if_neg (Nat.not_lt_of_le hlength)]

theorem walk?_nil_cons {l : List Bytes} : fs.walk? [] ([] :: l) = fs.walk? [] l := by
  rw [walk?]
  rfl

/-- The location of a new node by its absolute path. -/
theorem site?_path_eq_ok_iff {l k : Location} (hne : l ≠ []) (h : ∀ p ∈ l, IsName p) :
    fs.site? l.path = .ok k ↔ k = l ∧ l.IsProper ∧ fs.IsOpen l := by
  have hproper : l.IsProper ↔ Path.isUsable l.path ∧ ∀ p ∈ l, p.length ≤ Path.longestPart :=
    ⟨fun hl => ⟨hl.usable, hl.short⟩, fun hl => ⟨⟨hl.2, hl.1⟩, h⟩⟩
  rw [hproper, site?_eq_ok_iff, splitOn_path hne h, start_path]
  obtain ⟨l, p, rfl⟩ := exists_eq_concat hne
  obtain ⟨hl, hp⟩ := List.forall_mem_append.1 h
  have hp := hp p (List.mem_singleton_self p)
  have hwalk : ∀ {j}, fs.walk? [] ([] :: l) = .ok j ↔
      j = l ∧ fs.IsOpen l ∧ ∀ q ∈ l, q.length ≤ Path.longestPart :=
    walk?_nil_cons ▸ walk?_path_eq_ok_iff hl
  rw [isOpen_concat_iff, List.forall_mem_append]
  constructor
  · rintro ⟨hu, front, last, rest, j, hparts, hrest, hname, hlength, hj, hnode, rfl⟩
    -- the last part is a name, so no empty part follows it
    obtain rfl : rest = [] := by
      by_contra hne
      have hlast := congrArg List.getLast? hparts
      rw [← List.cons_append, List.getLast?_concat,
        List.getLast?_append_of_ne_nil _ (List.cons_ne_nil _ _),
        List.getLast?_cons_of_ne_nil hne] at hlast
      exact hp.ne_nil (hrest p (List.mem_of_getLast? hlast.symm))
    rw [← List.cons_append] at hparts
    obtain ⟨rfl, hlast⟩ := List.append_inj' hparts rfl
    obtain ⟨rfl, -⟩ := List.cons.inj hlast
    obtain ⟨rfl, hopen, hlengths⟩ := hwalk.1 hj
    exact ⟨rfl, ⟨hu, hlengths, by simpa using hlength⟩, hopen, hnode⟩
  · rintro ⟨rfl, ⟨hu, hlengths, hlength⟩, hopen, hnode⟩
    exact ⟨hu, [] :: l, p, [], l, rfl, nofun, hp, hlength p (List.mem_singleton_self p),
      hwalk.2 ⟨rfl, hopen, hlengths⟩, hnode, rfl⟩

/-- A place that nothing is in the way of is found or misses a directory above it. -/
theorem site?_path_eq_ok_or_missing {l : Location} (hne : l ≠ []) (hl : l.IsProper)
    (hfile : ∀ k, k <+: l → k ≠ l → ∀ content, fs.node? k ≠ some (.file content)) :
    fs.site? l.path = .ok l ∨ fs.site? l.path = .error .missing := by
  obtain ⟨⟨hlength, hu⟩, h⟩ := hl
  obtain ⟨l, p, rfl⟩ := exists_eq_concat hne
  obtain ⟨hl, hp⟩ := List.forall_mem_append.1 h
  have hp := hp p (List.mem_singleton_self p)
  obtain ⟨hlengths, hlength⟩ := List.forall_mem_append.1 hlength
  have hlast : (Bytes.splitOn Byte.slash (Location.path (l ++ [p]))).reverse.dropWhile (· == []) =
      p :: ([] :: l).reverse := by
    rw [splitOn_path hne h, reverse_dropWhile_eq_cons_iff, List.reverse_reverse]
    exact ⟨[], rfl, nofun, by simpa using hp.ne_nil⟩
  have hfile' : ∀ k, k <+: l → ∀ content, fs.node? k ≠ some (.file content) :=
    fun k hk => hfile k (hk.trans (List.prefix_append l [p])) (prefix_ne_concat hk p)
  rw [site?, entrance?, hu, hlast, start_path]
  simp only [Bool.not_true, Bool.false_eq_true, if_false, List.reverse_reverse, walk?_nil_cons]
  rcases walk?_eq_ok_or_missing (l := []) hl hlengths hfile' with hwalk | hwalk
  · cases hnode : fs.node? l with
    | none => simp [hwalk, hnode]
    | some n =>
      cases n with
      | file content => exact absurd hnode (hfile' l (List.prefix_refl l) content)
      | directory =>
        have hshort := Nat.not_lt_of_le (hlength p (List.mem_singleton_self p))
        simp [hwalk, hnode, hp.ne_here, hp.ne_above, hshort]
  · simp [hwalk]

/-! ## Look-up -/

/-- The location that a path leads to if all of its parts are there. -/
def locationOf (fs : FileSystem) (path : Bytes) : Location :=
  follow (fs.start path) (Bytes.splitOn Byte.slash path)

theorem locationOf_congr {fs' : FileSystem} (h : fs'.here = fs.here) (path : Bytes) :
    fs'.locationOf path = fs.locationOf path := by
  rw [locationOf, locationOf, start, start, h]

theorem eq_locationOf_of_walk? {path : Bytes} {l : Location}
    (h : fs.walk? (fs.start path) (Bytes.splitOn Byte.slash path) = .ok l) : l = fs.locationOf path :=
  (walk?_eq_ok_iff.1 h).1

theorem follow_of_isIdle {l : Location} {ps : List Bytes} (h : ∀ p ∈ ps, Path.isIdle p) :
    follow l ps = l := by
  induction ps generalizing l with
  | nil => rfl
  | cons p ps ih =>
    obtain ⟨hp, hps⟩ := List.forall_mem_cons.1 h
    have hcons : follow l (p :: ps) = follow (step l p) ps := rfl
    rw [hcons, step, if_pos hp, ih hps]

theorem eq_locationOf_of_site? {path : Bytes} {l : Location} (h : fs.site? path = .ok l) :
    l = fs.locationOf path := by
  obtain ⟨-, front, last, rest, k, hsplit, hrest, hname, -, hwalk, -, rfl⟩ := site?_eq_ok_iff.1 h
  have hrest : follow (k ++ [last]) rest = k ++ [last] :=
    follow_of_isIdle fun p hp => by rw [hrest p hp]; rfl
  have hlast : follow k (last :: rest) = follow (step k last) rest := rfl
  rw [locationOf, hsplit, follow_append, ← (walk?_eq_ok_iff.1 hwalk).1, hlast,
    step_of_isName k hname, hrest]

theorem reach?_eq_some_iff {path : Bytes} {l : Location} :
    fs.reach? path = some l ↔ path ≠ [] ∧
      fs.walk? (fs.start path) (Bytes.splitOn Byte.slash path) = .ok l ∧ (fs.node? l).isSome := by
  unfold reach?
  by_cases hpath : path = []
  · simp [hpath]
  · rw [if_neg hpath]
    cases fs.walk? (fs.start path) (Bytes.splitOn Byte.slash path) with
    | error => simp [hpath]
    | ok k =>
      dsimp only
      by_cases hk : (fs.node? k).isSome
      · rw [if_pos hk]
        simp only [Option.some.injEq, Except.ok.injEq, hpath, ne_eq, not_false_eq_true, true_and]
        exact ⟨fun h => ⟨h, h ▸ hk⟩, fun h => h.1⟩
      · rw [if_neg hk]
        simp only [reduceCtorEq, Except.ok.injEq, false_iff, not_and]
        rintro - rfl
        exact hk

theorem resolve?_eq_some {path : Bytes} {l : Location} (h : fs.resolve? path = some l) :
    path ≠ [] ∧ l = fs.locationOf path := by
  obtain ⟨hpath, hwalk, -⟩ := reach?_eq_some_iff.1 (Option.filter_eq_some_iff.1 h).1
  exact ⟨hpath, eq_locationOf_of_walk? hwalk⟩

theorem isDirectory_iff {path : Bytes} :
    fs.isDirectory path ↔ Path.isUsable path ∧ path ≠ [] ∧ ∃ l,
      fs.walk? (fs.start path) (Bytes.splitOn Byte.slash path) = .ok l ∧
        fs.node? l = some .directory := by
  rw [isDirectory, beq_iff_eq, find?, Option.bind_eq_some_iff]
  simp only [locate?, Option.ite_none_right_eq_some, reach?_eq_some_iff]
  constructor
  · rintro ⟨l, ⟨hu, hpath, hwalk, -⟩, hnode⟩
    exact ⟨hu, hpath, l, hwalk, hnode⟩
  · rintro ⟨hu, hpath, l, hwalk, hnode⟩
    exact ⟨l, ⟨hu, hpath, hwalk, by rw [hnode]; rfl⟩, hnode⟩

theorem isDirectory_mono {fs' : FileSystem} (hhere : fs'.here = fs.here)
    (hgrown : ∀ k, fs.node? k = some .directory → fs'.node? k = some .directory) {path : Bytes}
    (h : fs.isDirectory path) : fs'.isDirectory path := by
  obtain ⟨hu, hpath, l, hwalk, hnode⟩ := isDirectory_iff.1 h
  refine isDirectory_iff.2 ⟨hu, hpath, l, ?_, hgrown l hnode⟩
  rw [start, hhere]
  exact walk?_mono hgrown hwalk

/-- A directory is found in a file system with more directories. -/
theorem resolve?_mono {fs' : FileSystem} (hhere : fs'.here = fs.here)
    (hgrown : ∀ k, fs.node? k = some .directory → fs'.node? k = some .directory) {path : Bytes}
    {l : Location} (h : fs.resolve? path = some l) (hl : fs.node? l = some .directory) :
    fs'.resolve? path = some l := by
  obtain ⟨hreach, hu⟩ := Option.filter_eq_some_iff.1 h
  obtain ⟨hpath, hwalk, -⟩ := reach?_eq_some_iff.1 hreach
  refine Option.filter_eq_some_iff.2 ⟨reach?_eq_some_iff.2 ⟨hpath, ?_, by simp [hgrown l hl]⟩, hu⟩
  rw [start, hhere]
  exact walk?_mono hgrown hwalk

/-- The absolute path of a location leads to the directory there. -/
theorem isDirectory_path_iff {l : Location} (h : ∀ p ∈ l, IsName p) :
    fs.isDirectory l.path ↔ l.IsProper ∧ fs.IsOpen l ∧ fs.node? l = some .directory := by
  have hpath : l.path ≠ [] := by rw [Location.path_eq]; simp
  rw [isDirectory_iff, start_path, and_iff_right hpath]
  by_cases hne : l = []
  · subst hne
    refine iff_of_true ⟨by decide, [], rfl, rfl⟩ ⟨⟨by decide, nofun⟩, fun k hk hkne => ?_, rfl⟩
    exact absurd (List.prefix_nil.1 hk) hkne
  rw [splitOn_path hne h, walk?_nil_cons]
  constructor
  · rintro ⟨husable, k, hwalk, hnode⟩
    obtain ⟨rfl, hopen, hlength⟩ := (walk?_path_eq_ok_iff h).1 hwalk
    exact ⟨⟨⟨hlength, husable⟩, h⟩, hopen, hnode⟩
  · rintro ⟨hl, hopen, hnode⟩
    exact ⟨hl.usable, l, (walk?_path_eq_ok_iff h).2 ⟨rfl, hopen, hl.short⟩, hnode⟩

theorem isDirectory_path {l : Location} (hl : l.IsProper) (hopen : fs.IsOpen l)
    (hnode : fs.node? l = some .directory) : fs.isDirectory l.path :=
  (isDirectory_path_iff hl.name).2 ⟨hl, hopen, hnode⟩

end FileSystem

end PackageMigration
