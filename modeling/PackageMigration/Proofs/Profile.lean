import PackageMigration.Profile
import PackageMigration.Proofs.Mapping.Moved
import PackageMigration.Proofs.Mapping.Settled
/-
  What the built-in tables do to a text.

  * `Profile.oldRoot`, `Profile.newRoot`: the words `javax` and `jakarta`.

  Main statements: `isSettled_table`, `moved_convert` (a converted text has `jakarta` for some
  `javax` and is otherwise the same), `convert?_eq_none_of_not_isInfix`.
-/
namespace PackageMigration.Profile

def oldRoot : Bytes := bytes "javax"

def newRoot : Bytes := bytes "jakarta"

theorem mem_rules_table {p : Profile} {r : Rule} : r ∈ p.table.rules ↔ r ∈ p.rules :=
  Table.mem_rules_build

theorem segments_oldRoot (package : Bytes) :
    Name.segments (bytes "javax." ++ package) = oldRoot :: Name.segments package :=
  Bytes.splitOn_append_cons (show Byte.dot ∉ oldRoot by decide) package

theorem segments_newRoot (package : Bytes) :
    Name.segments (bytes "jakarta." ++ package) = newRoot :: Name.segments package :=
  Bytes.splitOn_append_cons (show Byte.dot ∉ newRoot by decide) package

/-- Every rule is about a package below `javax`, which it keeps or moves below `jakarta`. -/
theorem forall_rules (p : Profile) :
    ∀ r ∈ p.rules, r.root = oldRoot ∧
      (r.source ≠ r.target → ∃ s ss, Name.segments r.source = oldRoot :: s :: ss ∧
        Name.segments r.target = newRoot :: s :: ss) := by
  have hroot : ∀ {r : Rule} {package : Bytes},
      r.source = bytes "javax." ++ package → r.root = oldRoot := by
    intro r package hr
    have := r.head?_segments
    rw [hr, segments_oldRoot] at this
    exact (Option.some.inj this).symm
  intro r hr
  rcases List.mem_append.1 hr with hr | hr
  · obtain ⟨package, -, rfl⟩ := List.mem_map.1 hr
    exact ⟨hroot rfl, fun h => absurd rfl h⟩
  · obtain ⟨package, -, rfl⟩ := List.mem_map.1 hr
    obtain ⟨s, ss, hs⟩ := List.exists_cons_of_ne_nil (Bytes.splitOn_ne_nil Byte.dot (bytes package))
    have hs : Name.segments (bytes package) = s :: ss := hs
    refine ⟨hroot rfl, fun _ => ⟨s, ss, ?_, ?_⟩⟩
    · rw [move, segments_oldRoot, hs]
    · rw [move, segments_newRoot, hs]

theorem root_of_mem {p : Profile} {r : Rule} (h : r ∈ p.table.rules) : r.root = oldRoot :=
  (p.forall_rules r (mem_rules_table.1 h)).1

theorem segments_of_mem {p : Profile} {r : Rule} (h : r ∈ p.table.rules) (hne : r.source ≠ r.target) :
    ∃ s ss, Name.segments r.source = oldRoot :: s :: ss ∧ Name.segments r.target = newRoot :: s :: ss :=
  (p.forall_rules r (mem_rules_table.1 h)).2 hne

theorem isSettled_table (p : Profile) : p.table.IsSettled := by
  intro r hr hne r' hr'
  obtain ⟨s, ss, -, ht⟩ := segments_of_mem hr hne
  have htarget : r.targetRoot = newRoot := by
    have := r.head?_segments_target
    rw [ht] at this
    exact (Option.some.inj this).symm
  rw [htarget, root_of_mem hr']
  decide

/-- A chain that moves has `jakarta` for `javax` at the end of its first run and is otherwise the same. -/
theorem eq_of_moved? {p : Profile} {c c' : Chain} (hc : c.IsProper) (h : c.moved? p.table = some c') :
    ∃ codes, c.first = codes ++ oldRoot ∧ c' = ⟨codes ++ newRoot, c.rest⟩ := by
  obtain ⟨r, hr, hne, codes, j, root, more, root', more', behind, hsource, htarget, rfl, rfl⟩ :=
    Chain.exists_rule_of_moved? hc h
  obtain ⟨s, ss, hs, ht⟩ := segments_of_mem hr hne
  obtain ⟨rfl, rfl⟩ := List.cons.inj (hs.symm.trans hsource)
  obtain ⟨rfl, rfl⟩ := List.cons.inj (ht.symm.trans htarget)
  exact ⟨codes, rfl, rfl⟩

theorem moved_piece (p : Profile) {q : Piece} (hq : ∀ c, q = .name c → c.IsProper) :
    Moved oldRoot newRoot q.bytes (q.converted p.table) := by
  rw [← Piece.bytes_moved]
  cases q with
  | other b => exact .refl _ _ _
  | name c =>
    rw [Piece.moved, Piece.bytes, Piece.bytes]
    cases hm : c.moved? p.table with
    | none => exact .refl _ _ _
    | some c' =>
      obtain ⟨codes, hfirst, rfl⟩ := eq_of_moved? (hq c rfl) hm
      have hword : Moved oldRoot newRoot oldRoot newRoot := .swap .nil
      rw [Option.getD_some, Chain.bytes, Chain.bytes, hfirst]
      exact ((Moved.refl _ _ _).append hword).append (.refl _ _ _)

/-- **A converted text has `jakarta` for some `javax` and is otherwise the same.** -/
theorem moved_convert (p : Profile) (s : Bytes) : Moved oldRoot newRoot s (p.table.convert s) := by
  have h : Moved oldRoot newRoot ((pieces s).flatMap Piece.bytes)
      ((pieces s).flatMap (Piece.converted p.table)) :=
    Moved.flatMap fun q hq => p.moved_piece fun c hc => (proper_pieces s).isProper_of_mem (hc ▸ hq)
  rwa [flatMap_bytes_pieces, ← Table.convert_eq_flatMap] at h

/-- A text without `javax` has no mapped name. -/
theorem convert?_eq_none_of_not_isInfix (p : Profile) {s : Bytes} (h : ¬ oldRoot <:+: s) :
    p.table.convert? s = none := by
  have hsettled := p.isSettled_table.convert?_convert s
  rwa [(p.moved_convert s).eq_of_not_isInfix h] at hsettled

end PackageMigration.Profile
