import PackageMigration.Proofs.Mapping.Settled
/-
  Tables of which one is a part of the other.

  * `Table.IsPartOf`: the rules of one table are among those of the other, which moves no package
    within one that the first table moves.

  Main statements: `IsPartOf.convert_convert` (what the part has converted is no hindrance to the
  whole), `IsPartOf.convert?_convert` (what the whole has converted holds no name for the part).
-/
namespace PackageMigration

/-- Every segment of a candidate is one. -/
theorem Chain.isSegment_candidateSegments {t : Table} {c : Chain} {d : Candidate} (hc : c.IsProper)
    (hd : c.candidate? t = some d) : ∀ s ∈ c.candidateSegments t d, Name.IsSegment s := by
  intro s hs
  rcases List.mem_cons.1 hs with rfl | hs
  · exact isSegment_root hc hd
  · obtain ⟨p, hp, rfl⟩ := List.mem_map.1 hs
    exact (hc.rest p ((List.takeWhile_prefix _).subset hp)).2

namespace Table

/-- The rules of `t` are among those of `u`, which have no further roots and look behind the first
segment if they do. The rules that only `u` has are not about packages within one that `t` moves. -/
structure IsPartOf (t u : Table) : Prop where
  rules : ∀ r ∈ t.rules, r ∈ u.rules
  roots : ∀ r ∈ u.rules, t.isRoot r.root
  depth : 2 ≤ t.depth ↔ 2 ≤ u.depth
  apart : ∀ r ∈ t.rules, r.source ≠ r.target → ∀ r' ∈ u.rules, r' ∉ t.rules →
    ¬ Name.segments r.source <+: Name.segments r'.source

namespace IsPartOf

variable {t u : Table} {c c' : Chain}

theorem isRoot_eq (h : t.IsPartOf u) : t.isRoot = u.isRoot := by
  funext s
  rw [Bool.eq_iff_iff, isRoot_iff, isRoot_iff]
  constructor
  · rintro ⟨r, hr, rfl⟩
    exact ⟨r, h.rules r hr, rfl⟩
  · rintro ⟨r, hr, rfl⟩
    exact isRoot_iff.1 (h.roots r hr)

theorem candidate?_eq (h : t.IsPartOf u) (c : Chain) : c.candidate? t = c.candidate? u := by
  unfold Chain.candidate?
  simp only [h.isRoot_eq]

theorem separator?_eq (h : t.IsPartOf u) (c : Chain) (d : Chain.Candidate) :
    c.separator? t d = c.separator? u d := by
  unfold Chain.separator?
  simp only [h.depth]

theorem candidateSegments_eq (h : t.IsPartOf u) (c : Chain) (d : Chain.Candidate) :
    c.candidateSegments t d = c.candidateSegments u d := by
  unfold Chain.candidateSegments
  rw [h.separator?_eq]

/-- A rule of the part that moves a name is the longest one in the whole, too. -/
theorem longest (h : t.IsPartOf u) {segments : List Bytes} {n : Nat} {r : Rule}
    (hs : ∀ s ∈ segments, Name.IsSegment s) (hl : t.Longest segments n r) (hne : r.source ≠ r.target) :
    u.Longest segments n r := by
  refine ⟨h.rules r hl.mem, hl.covers, fun r' hr' n' hc' => ?_⟩
  by_cases hmem : r' ∈ t.rules
  · exact hl.longest r' hmem n' hc'
  · by_contra hlt
    -- the source of a longer rule would go on behind the one of `r`
    refine h.apart r hl.mem hne r' hr' hmem ?_
    rw [hl.covers.segments_source hs, hc'.segments_source hs]
    exact List.take_prefix_take_left (by omega)

/-- What the part moves, the whole moves alike. -/
theorem moved?_eq_some (h : t.IsPartOf u) (hc : c.IsProper) (hm : c.moved? t = some c') :
    c.moved? u = some c' := by
  obtain ⟨d, m, root, more, hd, hmatch, htarget, rfl⟩ := Chain.moved?_eq_some_iff.1 hm
  obtain ⟨r, hl, hne, hr⟩ := longestMatch?_eq_some_iff.1 hmatch
  have hl := h.longest (Chain.isSegment_candidateSegments hc hd) hl hne
  rw [h.candidateSegments_eq] at hl
  rw [h.candidate?_eq] at hd
  rw [h.separator?_eq]
  exact Chain.moved?_eq_some_iff.2
    ⟨d, m, root, more, hd, longestMatch?_eq_some_iff.2 ⟨r, hl, hne, hr⟩, htarget, rfl⟩

/-- In a name that either table moved neither finds another one. -/
theorem moved?_eq_none (h : t.IsPartOf u) (hu : u.IsSettled) (hm : c.moved? u = some c') :
    c'.moved? t = none ∧ c'.moved? u = none := by
  have hd := hu.candidate?_eq_none hm
  constructor
  · rw [Chain.moved?, h.candidate?_eq, hd]
    rfl
  · rw [Chain.moved?, hd]
    rfl

/-- The names that are left for the whole are those that it would have moved at once. -/
theorem moved_moved (h : t.IsPartOf u) (hu : u.IsSettled) {p : Piece}
    (hp : ∀ c, p = .name c → c.IsProper) : (p.moved t).moved u = p.moved u := by
  cases p with
  | other => rfl
  | name c =>
    cases hm : c.moved? t with
    | none => rw [Piece.moved, hm, Option.getD_none]
    | some c' =>
      have hu' := h.moved?_eq_some (hp c rfl) hm
      simp only [Piece.moved, hm, hu', Option.getD_some, (h.moved?_eq_none hu hu').2, Option.getD_none]

/-- **Converted by the part and then by the whole, a text is what the whole makes of it.** -/
theorem convert_convert (h : t.IsPartOf u) (hu : u.IsSettled) (s : Bytes) :
    u.convert (t.convert s) = u.convert s := by
  have hpieces : (pieces (t.convert s)).map (Piece.moved u) = (pieces s).map (Piece.moved u) := by
    rw [pieces_convert, List.map_map]
    refine List.map_congr_left fun p hp => h.moved_moved hu fun c hc => ?_
    exact (proper_pieces s).isProper_of_mem (hc ▸ hp)
  rw [← flatMap_bytes_pieces (u.convert (t.convert s)), pieces_convert, hpieces, ← pieces_convert,
    flatMap_bytes_pieces]

/-- **In a text that the whole converted the part finds no name.** -/
theorem convert?_convert (h : t.IsPartOf u) (hu : u.IsSettled) (s : Bytes) :
    t.convert? (u.convert s) = none := by
  rw [convert?_eq_none_iff, pieces_convert]
  intro c hmem
  obtain ⟨p, hp, hmoved⟩ := List.mem_map.1 hmem
  cases p with
  | other => cases hmoved
  | name c₀ =>
    obtain rfl := Piece.name.inj hmoved
    cases hm : c₀.moved? u with
    | some c' => exact (h.moved?_eq_none hu hm).1
    | none =>
      rw [Option.getD_none, Option.eq_none_iff_forall_ne_some]
      intro c' hc'
      rw [h.moved?_eq_some ((proper_pieces s).isProper_of_mem hp) hc'] at hm
      cases hm

end IsPartOf

end Table

end PackageMigration
