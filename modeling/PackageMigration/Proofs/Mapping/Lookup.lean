import Mathlib.Data.List.Nodup
import PackageMigration.Mapping.Table
import PackageMigration.Proofs.Bytes.Split
/-
  What looking a name up in a table finds.

  * `Rule.Covers`: the source is so many of the first segments.
  * `Table.Longest`: the rule that covers the most segments, and their number.

  Main statements: `covering?_eq_some_iff`, `longestMatch?_eq_some_iff`, `longest_take_iff` (segments
  behind the longest source do not matter).
-/
namespace PackageMigration

namespace Name

theorem IsSegment.notMem {s : Bytes} (h : IsSegment s) {b : UInt8} (hb : isIdent b = false) : b ∉ s :=
  fun hm => absurd (h.2 b hm) (by simp [hb])

theorem segments_dotted {ss : List Bytes} (hne : ss ≠ []) (h : ∀ s ∈ ss, IsSegment s) :
    segments (dotted ss) = ss :=
  Bytes.splitOn_intercalate hne fun s hs => (h s hs).notMem (by decide)

end Name

namespace Rule

/-- The source is the first `n` segments of a name. -/
def Covers (r : Rule) (segments : List Bytes) (n : Nat) : Prop :=
  0 < n ∧ n ≤ segments.length ∧ Name.dotted (segments.take n) = r.source

theorem Covers.segments_source {r : Rule} {segments : List Bytes} {n : Nat}
    (h : r.Covers segments n) (hs : ∀ s ∈ segments, Name.IsSegment s) :
    Name.segments r.source = segments.take n := by
  obtain ⟨hn, hl, he⟩ := h
  rw [← he]
  refine Name.segments_dotted ?_ fun s h => hs s (List.mem_of_mem_take h)
  rw [Ne, List.take_eq_nil_iff]
  rintro (h | h) <;> simp_all

theorem Covers.depth_eq {r : Rule} {segments : List Bytes} {n : Nat}
    (h : r.Covers segments n) (hs : ∀ s ∈ segments, Name.IsSegment s) : r.depth = n := by
  rw [depth, h.segments_source hs, List.length_take, Nat.min_eq_left h.2.1]

theorem head?_segments (r : Rule) : (Name.segments r.source).head? = some r.root :=
  Bytes.head?_splitOn _ _

end Rule

namespace Table

variable {t : Table} {segments : List Bytes} {n : Nat} {r : Rule}

theorem mem_coverings_iff_covers :
    (n, r) ∈ t.coverings segments ↔ r ∈ t.rules ∧ r.Covers segments n :=
  mem_coverings_iff

theorem depth_le (h : r ∈ t.rules) : r.depth ≤ t.depth := by
  have key : ∀ (ds : List Nat) (a : Nat), a ≤ ds.foldl max a ∧ ∀ d ∈ ds, d ≤ ds.foldl max a := by
    intro ds
    induction ds with
    | nil => simp
    | cons d ds ih =>
      intro a
      obtain ⟨h1, h2⟩ := ih (max a d)
      simp only [List.foldl_cons, List.forall_mem_cons]
      exact ⟨by omega, by omega, h2⟩
  rw [t.depth_eq]
  exact (key _ 0).2 _ (List.mem_map_of_mem h)

/-- The rule covers the most segments at the start of a name, `n` of them. -/
structure Longest (t : Table) (segments : List Bytes) (n : Nat) (r : Rule) : Prop where
  mem : r ∈ t.rules
  covers : r.Covers segments n
  longest : ∀ r' ∈ t.rules, ∀ n', r'.Covers segments n' → n' ≤ n

/-- A source begins with a segment. -/
theorem ne_nil_of_isRoot {root : Bytes} (h : t.isRoot root) : root ≠ [] := by
  obtain ⟨r, hr, rfl⟩ := isRoot_iff.1 h
  exact ((t.qualified r hr).1 r.root (List.mem_of_head? r.head?_segments)).1

/-- A name of which a source covers the start begins with a root. -/
theorem Longest.isRoot {s : Bytes} {ss : List Bytes} (h : t.Longest (s :: ss) n r)
    (hs : ∀ p ∈ s :: ss, Name.IsSegment p) : t.isRoot s := by
  refine isRoot_iff.2 ⟨r, h.mem, Option.some.inj ?_⟩
  obtain ⟨k, hk⟩ := Nat.exists_eq_add_one_of_ne_zero (Nat.ne_of_gt h.covers.1)
  rw [← r.head?_segments, h.covers.segments_source hs, hk, List.take_succ_cons, List.head?_cons]

theorem eq_of_source_eq {r' : Rule} (h : r ∈ t.rules) (h' : r' ∈ t.rules)
    (hs : r.source = r'.source) : r = r' :=
  List.inj_on_of_nodup_map t.distinct h h' hs

theorem Longest.unique {n' : Nat} {r' : Rule} (h : t.Longest segments n r)
    (h' : t.Longest segments n' r') : n = n' ∧ r = r' := by
  have hn : n = n' := Nat.le_antisymm (h'.longest r h.mem n h.covers) (h.longest r' h'.mem n' h'.covers)
  subst hn
  exact ⟨rfl, eq_of_source_eq h.mem h'.mem (h.covers.2.2.symm.trans h'.covers.2.2)⟩

theorem longest_of_covering? (h : t.covering? segments = some (n, r)) : t.Longest segments n r := by
  obtain ⟨hm, hc⟩ := mem_coverings_iff_covers.1 (List.maxOn?_mem h)
  refine ⟨hm, hc, fun r' hr' n' hc' => ?_⟩
  have hle := List.le_apply_get_maxOn?_of_mem (f := Prod.fst) (mem_coverings_iff_covers.2 ⟨hr', hc'⟩)
  rw [covering?] at h
  simpa [h] using hle

theorem covering?_eq_some_iff : t.covering? segments = some (n, r) ↔ t.Longest segments n r := by
  refine ⟨longest_of_covering?, fun h => ?_⟩
  have hs : (t.covering? segments).isSome :=
    List.isSome_maxOn?_of_mem (mem_coverings_iff_covers.2 ⟨h.mem, h.covers⟩)
  obtain ⟨⟨n', r'⟩, hs⟩ := Option.isSome_iff_exists.1 hs
  obtain ⟨rfl, rfl⟩ := h.unique (longest_of_covering? hs)
  exact hs

theorem longestMatch?_eq_some_iff {m : Match} :
    t.longestMatch? segments = some m ↔
      ∃ r, t.Longest segments m.count r ∧ r.source ≠ r.target ∧ r.target = m.target := by
  obtain ⟨n, target⟩ := m
  unfold longestMatch?
  constructor
  · intro h
    split at h
    next n' r hc =>
      split at h
      · cases h
      next he => cases h; exact ⟨r, covering?_eq_some_iff.1 hc, by simpa [Rule.isExclusion] using he, rfl⟩
    · cases h
  · rintro ⟨r, hl, hne, rfl⟩
    simp [covering?_eq_some_iff.2 hl, Rule.isExclusion, hne]

/-- Segments that no source reaches do not matter. -/
theorem longest_take_iff (hs : ∀ s ∈ segments, Name.IsSegment s) {k : Nat} (hk : t.depth ≤ k) :
    t.Longest (segments.take k) n r ↔ t.Longest segments n r := by
  have key : ∀ r ∈ t.rules, ∀ n, r.Covers (segments.take k) n ↔ r.Covers segments n := by
    intro r hr n
    constructor
    · rintro ⟨hn, hl, he⟩
      rw [List.length_take] at hl
      rw [List.take_take, Nat.min_eq_left (by omega)] at he
      exact ⟨hn, by omega, he⟩
    · intro hc
      have hle := hc.depth_eq hs ▸ depth_le hr
      refine ⟨hc.1, ?_, ?_⟩
      · rw [List.length_take]; exact Nat.le_min.2 ⟨Nat.le_trans hle hk, hc.2.1⟩
      · rw [List.take_take, Nat.min_eq_left (Nat.le_trans hle hk)]; exact hc.2.2
  constructor
  · rintro ⟨hm, hc, hl⟩
    exact ⟨hm, (key r hm n).1 hc, fun r' hr' n' h => hl r' hr' n' ((key r' hr' n').2 h)⟩
  · rintro ⟨hm, hc, hl⟩
    exact ⟨hm, (key r hm n).2 hc, fun r' hr' n' h => hl r' hr' n' ((key r' hr' n').1 h)⟩

end Table

end PackageMigration
