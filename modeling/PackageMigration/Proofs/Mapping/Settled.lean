import PackageMigration.Proofs.Mapping.Occurrence
/-
  Texts without a mapped name.

  * `Chain.moved?`: a chain with its mapped name replaced, as a chain; `Piece.moved`.
  * `Table.IsSettled`: no name that moved can move again.

  Main statements: `pieces_convert` (the pieces of a converted text are the converted pieces),
  `convert?_convert` (in a settled table, a text is converted once).
-/
namespace PackageMigration

/-- The first segment of the target. -/
def Rule.targetRoot (r : Rule) : Bytes := r.target.takeWhile (· != Byte.dot)

theorem Rule.head?_segments_target (r : Rule) :
    (Name.segments r.target).head? = some r.targetRoot :=
  Bytes.head?_splitOn _ _

namespace Chain

/-- The chain with its mapped name replaced, if it holds any. -/
def moved? (t : Table) (c : Chain) : Option Chain := do
  let d ← c.candidate? t
  let m ← t.longestMatch? (c.candidateSegments t d)
  let root :: more := Name.segments m.target | none
  return ⟨d.codes ++ root,
    more.map ((c.separator? t d).getD Byte.dot, ·) ++ c.rest.drop (m.count - 1)⟩

variable {t : Table} {c c' : Chain} {d : Candidate}

theorem moved?_eq_some_iff :
    c.moved? t = some c' ↔ ∃ d m root more, c.candidate? t = some d ∧
      t.longestMatch? (c.candidateSegments t d) = some m ∧ Name.segments m.target = root :: more ∧
      c' = ⟨d.codes ++ root,
        more.map ((c.separator? t d).getD Byte.dot, ·) ++ c.rest.drop (m.count - 1)⟩ := by
  simp only [moved?, bind, Option.bind_eq_some_iff, pure]
  constructor
  · rintro ⟨d, hd, m, hm, h⟩
    split at h
    next root more hs => exact ⟨d, m, root, more, hd, hm, hs, (Option.some.inj h).symm⟩
    next => cases h
  · rintro ⟨d, m, root, more, hd, hm, hs, rfl⟩
    exact ⟨d, hd, m, hm, by rw [hs]⟩

theorem convert?_eq_map_moved? (t : Table) (c : Chain) : c.convert? t = (c.moved? t).map bytes := by
  unfold convert? moved?
  cases c.candidate? t with
  | none => rfl
  | some d =>
    cases hm : t.longestMatch? (c.candidateSegments t d) with
    | none => simp [hm]
    | some m =>
      obtain ⟨root, more, hs⟩ := List.exists_cons_of_ne_nil (Bytes.splitOn_ne_nil Byte.dot m.target)
      have hs : Name.segments m.target = root :: more := hs
      simp [hm, hs, bytes, runBytes, intercalate_eq_append_runBytes]

theorem IsProper.isSeparator_separator? (hc : c.IsProper) (hd : c.candidate? t = some d) :
    isSeparator ((c.separator? t d).getD Byte.dot) := by
  have h := candidate?_eq_some_iff.1 hd
  unfold separator?
  generalize d.codes = codes, d.root = root, d.separator = fixed at h
  cases fixed with
  | some s =>
    cases h with
    | descriptor => rfl
  | none =>
    dsimp only
    split
    · cases hr : c.rest with
      | nil => rfl
      | cons p rest => exact (hc.rest p (hr ▸ List.mem_cons_self)).1
    · rfl

/-- A name that moved is a name again. -/
theorem IsProper.moved? (hc : c.IsProper) (h : c.moved? t = some c') : c'.IsProper := by
  obtain ⟨d, m, root, more, hd, hm, hs, rfl⟩ := moved?_eq_some_iff.1 h
  obtain ⟨r, hl, -, ht⟩ := Table.longestMatch?_eq_some_iff.1 hm
  have hq : ∀ s ∈ root :: more, Name.IsSegment s := by
    rw [← hs, ← ht]
    exact (t.qualified r hl.mem).2
  obtain ⟨hroot, hmore⟩ := List.forall_mem_cons.1 hq
  have hcodes : ∀ b ∈ d.codes, Name.isIdent b := by
    intro b hb
    refine hc.first.2 b ?_
    rw [← (candidate?_eq_some_iff.1 hd).append_eq]
    exact List.mem_append_left _ hb
  refine ⟨⟨by simp [hroot.1], fun b hb => ?_⟩, fun p hp => ?_⟩
  · rcases List.mem_append.1 hb with hb | hb
    · exact hcodes b hb
    · exact hroot.2 b hb
  · rcases List.mem_append.1 hp with hp | hp
    · obtain ⟨s, hs, rfl⟩ := List.mem_map.1 hp
      exact ⟨hc.isSeparator_separator? hd, hmore s hs⟩
    · exact hc.rest p (List.mem_of_mem_drop hp)

/-- A chain that moves begins with a source, behind codes, and the target takes its place. -/
theorem exists_rule_of_moved? (hc : c.IsProper) (h : c.moved? t = some c') :
    ∃ r ∈ t.rules, r.source ≠ r.target ∧ ∃ codes j root more root' more' behind,
      Name.segments r.source = root :: more ∧ Name.segments r.target = root' :: more' ∧
        c = ⟨codes ++ root, more.map (j, ·) ++ behind⟩ ∧
          c' = ⟨codes ++ root', more'.map (j, ·) ++ behind⟩ := by
  obtain ⟨d, m, root', more', hd, hm, htarget, rfl⟩ := moved?_eq_some_iff.1 h
  obtain ⟨r, hl, hne, ht⟩ := Table.longestMatch?_eq_some_iff.1 hm
  have hl := (longest_candidateSegments_iff hc hd).1 hl
  obtain ⟨more, hsource, htake⟩ := exists_take_rest_eq hc hd hl ((joint_iff hc hd hl).2 rfl)
  refine ⟨r, hl.mem, hne, d.codes, _, d.root, more, root', more', c.rest.drop (m.count - 1), hsource,
    by rw [ht, htarget], ?_, rfl⟩
  rw [(candidate?_eq_some_iff.1 hd).append_eq, ← htake, List.take_append_drop]

end Chain

/-! ## The pieces of a converted text -/

/-- A piece with its mapped name replaced. -/
def Piece.moved (t : Table) : Piece → Piece
  | other b => other b
  | name c => name ((c.moved? t).getD c)

section
variable {t : Table}

theorem Piece.bytes_moved (p : Piece) : (p.moved t).bytes = p.converted t := by
  cases p with
  | other => rfl
  | name c =>
    show ((c.moved? t).getD c).bytes = (c.convert? t).getD c.bytes
    rw [Chain.convert?_eq_map_moved?]
    cases c.moved? t <;> rfl

theorem endsChain_map_moved {ps : List Piece} : EndsChain (ps.map (Piece.moved t)) ↔ EndsChain ps := by
  match ps with
  | [] => exact Iff.rfl
  | [.other _] => exact Iff.rfl
  | .name _ :: _ => exact Iff.rfl
  | .other _ :: .other _ :: _ => exact Iff.rfl
  | .other _ :: .name _ :: _ => exact Iff.rfl

theorem Proper.map_moved {ps : List Piece} (h : Proper ps) : Proper (ps.map (Piece.moved t)) := by
  induction h with
  | nil => exact .nil
  | other hb _ ih => exact .other hb ih
  | @name c ps hc he _ ih =>
    refine .name ?_ (endsChain_map_moved.2 he) ih
    cases hm : c.moved? t with
    | none => exact hc
    | some c' => exact hc.moved? hm

/-- **The pieces of a converted text are the converted pieces.** -/
theorem pieces_convert (t : Table) (s : Bytes) :
    pieces (t.convert s) = (pieces s).map (Piece.moved t) := by
  have h : t.convert s = ((pieces s).map (Piece.moved t)).flatMap Piece.bytes := by
    rw [Table.convert_eq_flatMap, List.flatMap_map]
    simp only [Piece.bytes_moved]
  rw [h, pieces_flatMap_bytes (proper_pieces s).map_moved]

theorem Table.convert?_eq_none_iff {s : Bytes} :
    t.convert? s = none ↔ ∀ c, .name c ∈ pieces s → c.moved? t = none := by
  have hany : ((pieces s).any fun p => (p.convert? t).isSome) = false ↔
      ∀ c, .name c ∈ pieces s → c.moved? t = none := by
    simp only [List.any_eq_false, Bool.not_eq_true, Option.isSome_eq_false_iff,
      Option.isNone_iff_eq_none]
    constructor
    · intro h c hc
      have := h _ hc
      rwa [Piece.convert?, Chain.convert?_eq_map_moved?, Option.map_eq_none_iff] at this
    · intro h p hp
      cases p with
      | other => rfl
      | name c => rw [Piece.convert?, Chain.convert?_eq_map_moved?, h c hp]; rfl
  rw [← hany, Table.convert?]
  cases (pieces s).any fun p => (p.convert? t).isSome <;> simp

/-- A byte that stands in no name stays, and so does what is on its sides but for their own names. -/
theorem Table.convert_append_cons {b : UInt8} (hb : Name.isIdent b = false)
    (hs : isSeparator b = false) (s s' : Bytes) :
    t.convert (s ++ b :: s') = t.convert s ++ b :: t.convert s' := by
  simp only [Table.convert_eq_flatMap, pieces_append_cons hb hs, List.flatMap_append,
    List.flatMap_cons]
  rfl

/-- A byte that stands in no name keeps the names on its sides apart. -/
theorem Table.convert?_append_cons_eq_none_iff {b : UInt8} (hb : Name.isIdent b = false)
    (hs : isSeparator b = false) {s s' : Bytes} :
    t.convert? (s ++ b :: s') = none ↔ t.convert? s = none ∧ t.convert? s' = none := by
  simp only [Table.convert?_eq_none_iff, pieces_append_cons hb hs, List.mem_append, List.mem_cons,
    reduceCtorEq, false_or]
  constructor
  · intro h
    exact ⟨fun c hc => h c (.inl hc), fun c hc => h c (.inr hc)⟩
  · rintro ⟨h, h'⟩ c (hc | hc)
    · exact h c hc
    · exact h' c hc

/-! ## Settled tables -/

/-- No name that moved can move again: a segment that ends in the first segment of a target, or that
it ends in, is no root. -/
def Table.IsSettled (t : Table) : Prop :=
  ∀ r ∈ t.rules, r.source ≠ r.target → ∀ r' ∈ t.rules,
    ¬ r.targetRoot <:+ r'.root ∧ ¬ r'.root <:+ r.targetRoot

instance (t : Table) : Decidable t.IsSettled :=
  inferInstanceAs (Decidable (∀ r ∈ t.rules, _ → _))

/-- Behind a moved root no further name starts. -/
theorem Table.IsSettled.not_candidateIn (h : t.IsSettled) {r : Rule} (hr : r ∈ t.rules)
    (hne : r.source ≠ r.target) {run codes root : Bytes} {fixed : Option UInt8}
    (hc : CandidateIn t run codes root fixed) {codes' root' : Bytes} {fixed' : Option UInt8} :
    ¬ CandidateIn t (codes ++ r.targetRoot) codes' root' fixed' := by
  have hroot : ∀ {s : Bytes}, t.isRoot s → ¬ r.targetRoot <:+ s ∧ ¬ s <:+ r.targetRoot := by
    intro s hs
    obtain ⟨r', hr', rfl⟩ := Table.isRoot_iff.1 hs
    exact h r hr hne r' hr'
  intro hc'
  generalize hrun : codes ++ r.targetRoot = run' at hc'
  cases hc' with
  | plain hs =>
    exact (hroot (hrun ▸ hs)).1 (List.suffix_append _ _)
  | @descriptor codes' root' _ he hp hs =>
    cases hc with
    | plain =>
      rw [List.nil_append] at hrun
      exact (hroot hs).2 ⟨codes' ++ [classCode], by rw [hrun, he]; simp⟩
    | @descriptor codes _ _ _ hp' _ =>
      -- the first `L` behind the codes is the one of the descriptor that moved
      rw [he, List.append_assoc, List.singleton_append] at hrun
      have hdrop := congrArg (List.dropWhile isPrimitiveCode) hrun
      rw [List.dropWhile_append_of_pos hp', List.dropWhile_append_of_pos hp] at hdrop
      obtain rfl := (List.cons.inj (show classCode :: r.targetRoot = classCode :: root' from hdrop)).2
      exact (hroot hs).1 (List.suffix_refl _)

/-- In a chain that moved no name starts. -/
theorem Table.IsSettled.candidate?_eq_none (h : t.IsSettled) {c c' : Chain} (hm : c.moved? t = some c') :
    c'.candidate? t = none := by
  obtain ⟨d, m, root, more, hd, hmatch, hs, rfl⟩ := Chain.moved?_eq_some_iff.1 hm
  obtain ⟨r, hl, hne, ht⟩ := Table.longestMatch?_eq_some_iff.1 hmatch
  have hroot : r.targetRoot = root := by
    have := r.head?_segments_target
    rw [ht, hs] at this
    exact (Option.some.inj this).symm
  rw [← hroot, Option.eq_none_iff_forall_ne_some]
  intro d' hd'
  exact h.not_candidateIn hl.mem hne (Chain.candidate?_eq_some_iff.1 hd)
    (Chain.candidate?_eq_some_iff.1 hd')

theorem Table.IsSettled.moved?_eq_none (h : t.IsSettled) {c c' : Chain} (hm : c.moved? t = some c') :
    c'.moved? t = none := by
  rw [Chain.moved?, h.candidate?_eq_none hm]
  rfl

/-- **A text is converted once.** -/
theorem Table.IsSettled.convert?_convert (h : t.IsSettled) (s : Bytes) :
    t.convert? (t.convert s) = none := by
  rw [Table.convert?_eq_none_iff, pieces_convert]
  intro c hc
  obtain ⟨p, -, hp⟩ := List.mem_map.1 hc
  cases p with
  | other => cases hp
  | name c =>
    obtain rfl := Piece.name.inj hp
    cases hm : c.moved? t with
    | none => exact hm
    | some c' => exact h.moved?_eq_none hm

end

end PackageMigration
