import PackageMigration.Proofs.Mapping.Lookup
import PackageMigration.Proofs.Mapping.Spelling
/-
  Which spans of a text are replaced, said of the text itself, without its pieces.

  * `BeginsName`: a run of identifier bytes with which a name begins.
  * `CandidateIn`: where in such a run a mapped name may start.
  * `Extends`: how far it goes on behind the run.
  * `Joint`: the separator that joins the target.
  * `Replaces`: a span and the name that takes its place.
  * `SpanIn`: the same, found among the pieces of the text.

  Main statement: `replaces_iff` (the two agree).
-/
namespace PackageMigration

/-- The text starts with an identifier byte. -/
def StartsInRun (s : Bytes) : Prop := ∃ b r, s = b :: r ∧ Name.isIdent b

/-- A maximal run of identifier bytes between two texts. No identifier byte and separator stand right
in front of it. -/
structure BeginsName (before run after : Bytes) : Prop where
  segment : Name.IsSegment run
  left : ¬ EndsInRun before
  right : ¬ StartsInRun after
  fresh : ¬ EndsInJoint before

/-- A mapped name may start with a run that is a root of the table, or else behind the codes and the
`L` of a descriptor, if a root follows them in the run. The names of descriptors have slashes. -/
inductive CandidateIn (t : Table) (run : Bytes) : Bytes → Bytes → Option UInt8 → Prop
  | plain : t.isRoot run → CandidateIn t run [] run none
  | descriptor {codes root : Bytes} : t.isRoot run = false → run = codes ++ classCode :: root →
      (∀ b ∈ codes, isPrimitiveCode b) → t.isRoot root →
      CandidateIn t run (codes ++ [classCode]) root (some Byte.slash)

/-- The runs behind the first one, as far as they are joined by one separator, the fixed one if there
is one. -/
structure Extends (fixed : Option UInt8) (rest : List (UInt8 × Bytes)) (after : Bytes) : Prop where
  runs : ∀ p ∈ rest, isSeparator p.1 ∧ Name.IsSegment p.2
  same : ∀ p ∈ rest, ∀ q ∈ rest, p.1 = q.1
  agrees : ∀ p ∈ rest, ∀ c ∈ fixed, p.1 = c
  ends : ¬ StartsInRun after
  maximal : ∀ c b s, after = c :: b :: s → isSeparator c → Name.isIdent b →
    (∃ f ∈ fixed, f ≠ c) ∨ ∃ p ∈ rest, p.1 ≠ c

/-- The separator of the target is the one that joins the replaced segments, or the fixed one. Where
neither is given it is the one behind the segment, which is looked at only if some source has two
segments. -/
structure Joint (t : Table) (fixed : Option UInt8) (rest : List (UInt8 × Bytes)) (n : Nat)
    (c : UInt8) : Prop where
  matched : ∀ p ∈ rest.take (n - 1), c = p.1
  agrees : ∀ f ∈ fixed, c = f
  single : fixed = none → n = 1 →
    c = if 2 ≤ t.depth then (rest.head?.map Prod.fst).getD Byte.dot else Byte.dot

/-- Between `before` and `after`, `new` takes the place of `old`: the segments of a candidate that the
longest rule covers, which is no exclusion. -/
inductive Replaces (t : Table) : Bytes → Bytes → Bytes → Bytes → Prop
  | intro {before run after codes root : Bytes} {fixed : Option UInt8}
      {rest : List (UInt8 × Bytes)} {n : Nat} {r : Rule} {c : UInt8} :
      BeginsName before run (runBytes rest ++ after) → CandidateIn t run codes root fixed →
      Extends fixed rest after → t.Longest (root :: rest.map Prod.snd) n r → r.source ≠ r.target →
      Joint t fixed rest n c →
      Replaces t (before ++ codes) (root ++ runBytes (rest.take (n - 1)))
        ([c].intercalate (Name.segments r.target)) (runBytes (rest.drop (n - 1)) ++ after)

/-! ## The extent of a candidate -/

theorem intercalate_eq_append_runBytes (j : UInt8) (s : Bytes) (ss : List Bytes) :
    [j].intercalate (s :: ss) = s ++ runBytes (ss.map (j, ·)) := by
  induction ss generalizing s with
  | nil => simp [runBytes]
  | cons s' ss ih =>
    rw [List.intercalate_cons_cons, ih]
    simp [runBytes]

/-- The run has the fixed separator, or else that of the first of the runs. -/
def isJoined (fixed : Option UInt8) (rest : List (UInt8 × Bytes)) (p : UInt8 × Bytes) : Bool :=
  some p.1 == fixed.or (rest.head?.map Prod.fst)

/-- The runs of a chain that a candidate goes on over. -/
def sameJoint (fixed : Option UInt8) (rest : List (UInt8 × Bytes)) : List (UInt8 × Bytes) :=
  rest.takeWhile (isJoined fixed rest)

theorem eq_of_mem_sameJoint {fixed : Option UInt8} {rest : List (UInt8 × Bytes)} {p : UInt8 × Bytes}
    (h : p ∈ sameJoint fixed rest) : some p.1 = fixed.or (rest.head?.map Prod.fst) :=
  beq_iff_eq.1 (List.all_eq_true.1 List.all_takeWhile p h)

theorem CandidateIn.append_eq {t : Table} {run codes root : Bytes} {fixed : Option UInt8}
    (h : CandidateIn t run codes root fixed) : codes ++ root = run := by
  cases h with
  | plain => rfl
  | descriptor _ h => rw [h, List.append_assoc, List.singleton_append]

namespace Chain

variable {t : Table} {c : Chain} {d : Candidate}

theorem candidate?_eq_some_iff :
    c.candidate? t = some d ↔ CandidateIn t c.first d.codes d.root d.separator := by
  obtain ⟨codes, root, fixed⟩ := d
  unfold candidate?
  constructor
  · intro h
    split at h
    next hr => cases h; exact .plain hr
    next hr =>
      split at h
      · cases h
      next b root' hd =>
        split at h
        next hb =>
          cases h
          obtain ⟨rfl, hroot⟩ := hb
          refine .descriptor (by simpa using hr) ?_ (fun b hb => ?_) hroot
          · rw [← hd, List.takeWhile_append_dropWhile]
          · exact List.all_eq_true.1 List.all_takeWhile b hb
        · cases h
  · intro h
    generalize hrun : c.first = run at h
    cases h with
    | plain hr => rw [if_pos hr]
    | @descriptor codes root hr he hp hroot =>
      have hd : run.dropWhile isPrimitiveCode = classCode :: root := by
        rw [he, List.dropWhile_append_of_pos hp]; rfl
      have ht : run.takeWhile isPrimitiveCode = codes := by
        rw [he, List.takeWhile_append_of_pos hp]
        exact List.append_nil codes
      rw [hr, hd, ht]
      simp [hroot]

theorem isSegment_root (hc : c.IsProper) (hd : c.candidate? t = some d) : Name.IsSegment d.root := by
  obtain ⟨hne, hall⟩ := hc.first
  have h := candidate?_eq_some_iff.1 hd
  rw [← h.append_eq] at hall
  refine ⟨?_, fun b hb => hall b (List.mem_append_right _ hb)⟩
  generalize d.codes = codes, d.root = root, d.separator = fixed, c.first = run at h
  cases h with
  | plain h => exact Table.ne_nil_of_isRoot h
  | descriptor _ _ _ h => exact Table.ne_nil_of_isRoot h

theorem isSegment_sameJoint (hc : c.IsProper) (fixed : Option UInt8) :
    ∀ s ∈ (sameJoint fixed c.rest).map Prod.snd, Name.IsSegment s := by
  intro s hs
  obtain ⟨p, hp, rfl⟩ := List.mem_map.1 hs
  exact (hc.rest p ((List.takeWhile_prefix _).subset hp)).2

/-- A table that never looks behind the first segment finds the same match as if it did. -/
theorem longest_candidateSegments_iff (hc : c.IsProper) (hd : c.candidate? t = some d) {n : Nat}
    {r : Rule} : t.Longest (c.candidateSegments t d) n r ↔
      t.Longest (d.root :: (sameJoint d.separator c.rest).map Prod.snd) n r := by
  unfold candidateSegments separator?
  cases hs : d.separator with
  | some s => rfl
  | none =>
    by_cases h2 : 2 ≤ t.depth
    · rw [if_pos h2]; rfl
    · have hall : ∀ s ∈ d.root :: (sameJoint none c.rest).map Prod.snd, Name.IsSegment s :=
        List.forall_mem_cons.2 ⟨isSegment_root hc hd, isSegment_sameJoint hc none⟩
      have hk := Table.longest_take_iff (n := n) (r := r) hall (show t.depth ≤ 1 by omega)
      rw [List.take_succ_cons, List.take_zero] at hk
      rw [← hk]
      have hnil : (c.rest.takeWhile fun _ => false) = [] := by cases c.rest <;> rfl
      simp [h2, hnil]

/-- Where in a chain a span is replaced, and the name that takes its place. -/
structure Span where
  codes : Bytes
  old : Bytes
  new : Bytes
  behind : Bytes

/-- The span of a chain that is replaced. -/
def span? (t : Table) (c : Chain) : Option Span := do
  let d ← c.candidate? t
  let m ← t.longestMatch? (c.candidateSegments t d)
  return ⟨d.codes, d.root ++ runBytes (c.rest.take (m.count - 1)),
    [(c.separator? t d).getD Byte.dot].intercalate (Name.segments m.target),
    runBytes (c.rest.drop (m.count - 1))⟩

theorem convert?_eq_map_span? (t : Table) (c : Chain) :
    c.convert? t = (c.span? t).map fun s => s.codes ++ s.new ++ s.behind := by
  unfold convert? span?
  cases c.candidate? t with
  | none => rfl
  | some d => cases h : t.longestMatch? (c.candidateSegments t d) <;> simp [h]

theorem runBytes_append (l l' : List (UInt8 × Bytes)) : runBytes (l ++ l') = runBytes l ++ runBytes l' :=
  List.flatMap_append

theorem span?_eq_some_iff_exists {s : Span} :
    c.span? t = some s ↔ ∃ d m, c.candidate? t = some d ∧
      t.longestMatch? (c.candidateSegments t d) = some m ∧
      s = ⟨d.codes, d.root ++ runBytes (c.rest.take (m.count - 1)),
        [(c.separator? t d).getD Byte.dot].intercalate (Name.segments m.target),
        runBytes (c.rest.drop (m.count - 1))⟩ := by
  simp only [span?, bind, Option.bind_eq_some_iff, pure, Option.some.injEq]
  constructor
  · rintro ⟨d, hd, m, hm, rfl⟩; exact ⟨d, m, hd, hm, rfl⟩
  · rintro ⟨d, m, hd, hm, rfl⟩; exact ⟨d, hd, m, hm, rfl⟩

theorem bytes_eq_of_span? {s : Span} (h : c.span? t = some s) :
    c.bytes = s.codes ++ s.old ++ s.behind := by
  obtain ⟨d, m, hd, -, rfl⟩ := span?_eq_some_iff_exists.1 h
  have hf := (candidate?_eq_some_iff.1 hd).append_eq
  rw [bytes, ← hf, ← List.take_append_drop (m.count - 1) c.rest, runBytes_append]
  simp

theorem joint_iff (hc : c.IsProper) (hd : c.candidate? t = some d) {n : Nat} {r : Rule}
    (hl : t.Longest (d.root :: (sameJoint d.separator c.rest).map Prod.snd) n r) {j : UInt8} :
    Joint t d.separator (sameJoint d.separator c.rest) n j ↔ j = (c.separator? t d).getD Byte.dot := by
  have hn : 0 < n := hl.covers.1
  have hle : n ≤ (sameJoint d.separator c.rest).length + 1 := by simpa using hl.covers.2.1
  have hdepth : n ≤ t.depth := by
    rw [← hl.covers.depth_eq (List.forall_mem_cons.2 ⟨isSegment_root hc hd, isSegment_sameJoint hc _⟩)]
    exact Table.depth_le hl.mem
  have hmem : ∀ p ∈ (sameJoint d.separator c.rest).take (n - 1),
      some p.1 = d.separator.or (c.rest.head?.map Prod.fst) := fun p hp =>
    eq_of_mem_sameJoint (List.mem_of_mem_take hp)
  have hhead : (sameJoint none c.rest).head?.map Prod.fst = c.rest.head?.map Prod.fst := by
    cases hr : c.rest with
    | nil => rfl
    | cons p ps => simp [sameJoint, isJoined]
  unfold separator?
  cases hs : d.separator with
  | some f =>
    rw [hs] at hmem
    constructor
    · intro h; exact h.agrees f rfl
    · rintro rfl
      refine ⟨fun p hp => ?_, fun f hf => ?_, fun h => nomatch h⟩
      · exact (Option.some.inj (hmem p hp)).symm
      · cases hf; rfl
  | none =>
    rw [hs] at hmem hle
    by_cases h2 : 2 ≤ t.depth
    · simp only [h2, if_true]
      rw [← hhead] at hmem ⊢
      constructor
      · intro h
        rcases Nat.eq_or_lt_of_le hn with h1 | h1
        · rw [h.single rfl h1.symm, if_pos h2]
        · cases hj : sameJoint none c.rest with
          | nil => rw [hj] at hle; simp at hle; omega
          | cons p ps =>
            have := h.matched p (by rw [hj, List.take_cons (by omega)]; exact List.mem_cons_self)
            simpa using this
      · rintro rfl
        refine ⟨fun p hp => ?_, fun f hf => (nomatch hf), fun _ _ => (if_pos h2).symm⟩
        have := hmem p hp
        rw [Option.none_or] at this
        rw [← this]; rfl
    · obtain rfl : n = 1 := by omega
      simp only [h2, if_false]
      constructor
      · intro h; rw [h.single rfl rfl, if_neg h2]; rfl
      · rintro rfl
        exact ⟨by simp, fun f hf => (nomatch hf), fun _ _ => (if_neg h2).symm⟩

/-- What has to hold of a chain for a span of it to be replaced. -/
theorem span?_eq_some_iff (hc : c.IsProper) {s : Span} :
    c.span? t = some s ↔ ∃ codes root fixed n r j, CandidateIn t c.first codes root fixed ∧
      t.Longest (root :: (sameJoint fixed c.rest).map Prod.snd) n r ∧ r.source ≠ r.target ∧
      Joint t fixed (sameJoint fixed c.rest) n j ∧
      s = ⟨codes, root ++ runBytes (c.rest.take (n - 1)), [j].intercalate (Name.segments r.target),
        runBytes (c.rest.drop (n - 1))⟩ := by
  rw [span?_eq_some_iff_exists]
  constructor
  · rintro ⟨d, m, hd, hm, rfl⟩
    obtain ⟨r, hl, hne, ht⟩ := Table.longestMatch?_eq_some_iff.1 hm
    have hl := (longest_candidateSegments_iff hc hd).1 hl
    exact ⟨d.codes, d.root, d.separator, m.count, r, _, candidate?_eq_some_iff.1 hd, hl, hne,
      (joint_iff hc hd hl).2 rfl, by rw [ht]⟩
  · rintro ⟨codes, root, fixed, n, r, j, hcand, hl, hne, hj, rfl⟩
    have hd : c.candidate? t = some ⟨codes, root, fixed⟩ := candidate?_eq_some_iff.2 hcand
    refine ⟨_, ⟨n, r.target⟩, hd, ?_, ?_⟩
    · exact Table.longestMatch?_eq_some_iff.2 ⟨r, (longest_candidateSegments_iff hc hd).2 hl, hne, rfl⟩
    · rw [(joint_iff hc hd hl).1 hj]

/-- The segments of a source stand at the start of a candidate, in one separator. -/
theorem exists_take_rest_eq (hc : c.IsProper) (hd : c.candidate? t = some d) {n : Nat} {r : Rule} {j : UInt8}
    (hl : t.Longest (d.root :: (sameJoint d.separator c.rest).map Prod.snd) n r)
    (hj : Joint t d.separator (sameJoint d.separator c.rest) n j) :
    ∃ more, Name.segments r.source = d.root :: more ∧ c.rest.take (n - 1) = more.map (j, ·) := by
  have hsegments := hl.covers.segments_source
    (List.forall_mem_cons.2 ⟨isSegment_root hc hd, isSegment_sameJoint hc d.separator⟩)
  have hn := hl.covers.1
  have hle : n ≤ (sameJoint d.separator c.rest).length + 1 := by simpa using hl.covers.2.1
  obtain ⟨n, rfl⟩ := Nat.exists_eq_add_one_of_ne_zero (Nat.ne_of_gt hn)
  have htake : c.rest.take n = (sameJoint d.separator c.rest).take n := by
    obtain ⟨more, hmore⟩ := List.takeWhile_prefix (isJoined d.separator c.rest) (l := c.rest)
    conv_lhs => rw [← hmore]
    exact List.take_append_of_le_length (Nat.le_of_succ_le_succ hle)
  have hjoint : ((sameJoint d.separator c.rest).take n).map (fun p => (j, p.2)) =
      (sameJoint d.separator c.rest).take n := by
    refine (List.map_congr_left fun p hp => ?_).trans (List.map_id _)
    rw [hj.matched p hp]; rfl
  refine ⟨((sameJoint d.separator c.rest).take n).map Prod.snd, ?_, ?_⟩
  · rw [hsegments, List.take_succ_cons, List.map_take]
  · rw [List.map_map, Nat.add_sub_cancel, htake]
    exact hjoint.symm

end Chain

/-! ## Chains in a text -/

theorem not_startsInRun_bytes {ps : List Piece} (hp : Proper ps) (he : EndsChain ps) :
    ¬ StartsInRun (ps.flatMap Piece.bytes) := by
  rintro ⟨b, s, h, hb⟩
  cases hp with
  | nil => cases h
  | other hb' _ => cases h; simp [hb'] at hb
  | name => exact he

/-- Behind a chain no separator is followed by a further run. -/
theorem not_isIdent_of_endsChain {ps : List Piece} (hp : Proper ps) (he : EndsChain ps)
    {c b : UInt8} {s : Bytes} (h : ps.flatMap Piece.bytes = c :: b :: s) (hc : isSeparator c) :
    Name.isIdent b = false := by
  cases hp with
  | nil => cases h
  | name => exact he.elim
  | @other c' qs _ hq =>
    obtain ⟨rfl, h⟩ := List.cons.inj h
    cases hq with
    | nil => cases h
    | other hb _ => cases h; exact hb
    | name => exact absurd hc (Bool.eq_false_iff.1 he)

/-- The runs of a chain, with the same separator, are those that a candidate goes on over. -/
theorem extends_sameJoint {c : Chain} (hc : c.IsProper) {qs : List Piece} (hq : Proper qs)
    (he : EndsChain qs) (fixed : Option UInt8) :
    ∃ more, c.rest = sameJoint fixed c.rest ++ more ∧
      Extends fixed (sameJoint fixed c.rest) (runBytes more ++ qs.flatMap Piece.bytes) := by
  refine ⟨_, List.takeWhile_append_dropWhile.symm, ?_, ?_, ?_, ?_, ?_⟩
  · exact fun p hp => hc.rest p ((List.takeWhile_prefix _).subset hp)
  · exact fun p hp q hq => Option.some.inj ((eq_of_mem_sameJoint hp).trans (eq_of_mem_sameJoint hq).symm)
  · rintro p hp f hf
    have := eq_of_mem_sameJoint hp
    rw [Option.mem_def.1 hf] at this
    exact Option.some.inj this
  · cases hm : c.rest.dropWhile (isJoined fixed c.rest) with
    | nil => exact not_startsInRun_bytes hq he
    | cons p ps =>
      rintro ⟨b, s, h, hb⟩
      have hp : p ∈ c.rest := (List.dropWhile_suffix _).subset (hm ▸ List.mem_cons_self)
      obtain ⟨rfl, -⟩ := List.cons.inj h
      simp [isIdent_of_isSeparator (hc.rest p hp).1] at hb
  · intro x b s h hx hb
    cases hm : c.rest.dropWhile (isJoined fixed c.rest) with
    | nil =>
      rw [hm] at h
      simp [not_isIdent_of_endsChain hq he h hx] at hb
    | cons p ps =>
      rw [hm] at h
      obtain ⟨rfl, -⟩ := List.cons.inj h
      have hne : isJoined fixed c.rest p = false := by
        have hw : c.rest.dropWhile (isJoined fixed c.rest) ≠ [] := by simp [hm]
        have := List.head_dropWhile_not (isJoined fixed c.rest) hw
        simpa only [hm, List.head_cons] using this
      cases fixed with
      | some f => exact .inl ⟨f, rfl, fun e => by simp [isJoined, e] at hne⟩
      | none =>
        cases hr : c.rest with
        | nil => rw [hr] at hm; cases hm
        | cons q rest =>
          refine .inr ⟨q, by simp [sameJoint, isJoined], fun e => ?_⟩
          simp [isJoined, hr, e] at hne

/-- A text that begins with a run begins with a chain, whose first runs are those behind the run. -/
theorem exists_pieces_run {run after : Bytes} {rest : List (UInt8 × Bytes)}
    (hr : Name.IsSegment run) (hp : ∀ p ∈ rest, isSeparator p.1 ∧ Name.IsSegment p.2)
    (ha : ¬ StartsInRun after) :
    ∃ more qs, pieces (run ++ runBytes rest ++ after) = .name ⟨run, rest ++ more⟩ :: qs ∧
      after = runBytes more ++ qs.flatMap Piece.bytes ∧ EndsChain qs := by
  have key : ∀ {more qs}, (∀ p ∈ more, isSeparator p.1 ∧ Name.IsSegment p.2) →
      after = runBytes more ++ qs.flatMap Piece.bytes → Proper qs → EndsChain qs →
      pieces (run ++ runBytes rest ++ after) = .name ⟨run, rest ++ more⟩ :: qs := by
    rintro more qs hm rfl hq he
    have hc : (Chain.mk run (rest ++ more)).IsProper :=
      ⟨hr, fun p h => (List.mem_append.1 h).elim (hp p) (hm p)⟩
    rw [← pieces_flatMap_bytes (Proper.name hc he hq)]
    simp [Piece.bytes, Chain.bytes, Chain.runBytes_append]
  have hs := proper_pieces after
  have hb := flatMap_bytes_pieces after
  generalize pieces after = ps at hs hb
  have alone : EndsChain ps → ∃ more qs,
      pieces (run ++ runBytes rest ++ after) = .name ⟨run, rest ++ more⟩ :: qs ∧
        after = runBytes more ++ qs.flatMap Piece.bytes ∧ EndsChain qs := fun he =>
    ⟨[], ps, key (by simp) hb.symm hs he, hb.symm, he⟩
  cases hs with
  | nil => exact alone trivial
  | @name c qs hc _ _ =>
    refine absurd ?_ ha
    obtain ⟨b, s, hf⟩ := List.exists_cons_of_ne_nil hc.first.1
    exact ⟨b, s ++ runBytes c.rest ++ qs.flatMap Piece.bytes,
      by rw [← hb]; simp [Piece.bytes, Chain.bytes, hf], hc.first.2 b (by simp [hf])⟩
  | @other x ps hx hs =>
    cases hs with
    | nil => exact alone trivial
    | other => exact alone trivial
    | @name c qs hc he hq =>
      cases hsep : isSeparator x with
      | false => exact alone hsep
      | true =>
        have ha : after = runBytes ((x, c.first) :: c.rest) ++ qs.flatMap Piece.bytes := by
          rw [← hb]; simp [Piece.bytes, Chain.bytes, runBytes]
        exact ⟨_, qs, key (List.forall_mem_cons.2 ⟨⟨hsep, hc.first⟩, hc.rest⟩) ha hq he, ha, he⟩

/-- A candidate goes on over the runs that `Extends` says, and no others. -/
theorem sameJoint_append {fixed : Option UInt8} {rest more : List (UInt8 × Bytes)} {s : Bytes}
    (h : Extends fixed rest (runBytes more ++ s))
    (hm : ∀ p ∈ more, isSeparator p.1 ∧ Name.IsSegment p.2) :
    sameJoint fixed (rest ++ more) = rest := by
  have hrest : ∀ p ∈ rest, isJoined fixed (rest ++ more) p := by
    intro p hp
    cases fixed with
    | some f => simp [isJoined, h.agrees p hp f rfl]
    | none =>
      obtain ⟨q, l, rfl⟩ := List.exists_cons_of_ne_nil (List.ne_nil_of_mem hp)
      simp [isJoined, h.same p hp q List.mem_cons_self]
  rw [sameJoint, List.takeWhile_append_of_pos hrest]
  cases more with
  | nil => rw [List.takeWhile_nil, List.append_nil]
  | cons p more =>
    obtain ⟨hp, -⟩ := List.forall_mem_cons.1 hm
    obtain ⟨b, r, hb⟩ := List.exists_cons_of_ne_nil hp.2.1
    have hmax := h.maximal p.1 b (r ++ runBytes more ++ s) (by simp [runBytes, hb]) hp.1
      (hp.2.2 b (by simp [hb]))
    have hne : isJoined fixed (rest ++ p :: more) p = false := by
      rcases hmax with ⟨f, hf, hne⟩ | ⟨q, hq, hne⟩
      · simp [isJoined, Option.mem_def.1 hf, Ne.symm hne]
      · have := hrest q hq
        simp only [isJoined, beq_iff_eq] at this
        rw [isJoined, ← this]
        simp [Ne.symm hne]
    rw [List.takeWhile_cons_of_neg (by simp [hne]), List.append_nil]

/-! ## Spans in a text -/

theorem Proper.of_append_right {ps qs : List Piece} (h : Proper (ps ++ qs)) : Proper qs := by
  induction ps with
  | nil => exact h
  | cons p ps ih =>
    rw [List.cons_append] at h
    cases h with
    | other _ h => exact ih h
    | name _ _ h => exact ih h

theorem Proper.exists_eq_concat {ps qs : List Piece} (h : Proper (ps ++ qs)) {r : Bytes} {b : UInt8}
    (he : ps.flatMap Piece.bytes = r ++ [b]) (hb : Name.isIdent b) : ∃ l c, ps = l ++ [.name c] := by
  rcases List.eq_nil_or_concat' ps with rfl | ⟨l, p, rfl⟩
  · simp at he
  · cases p with
    | name c => exact ⟨l, c, rfl⟩
    | other x =>
      rw [List.flatMap_append] at he
      obtain ⟨-, hx⟩ := List.append_inj' he rfl
      rw [List.append_assoc] at h
      cases h.of_append_right with
      | other hx' _ => cases hx; simp [hx'] at hb

/-- In front of a chain no run of identifier bytes ends. -/
theorem Proper.not_endsInRun {ps qs : List Piece} {c : Chain} (h : Proper (ps ++ .name c :: qs)) :
    ¬ EndsInRun (ps.flatMap Piece.bytes) := by
  rintro ⟨r, b, he, hb⟩
  obtain ⟨l, c', rfl⟩ := h.exists_eq_concat he hb
  rw [List.append_assoc] at h
  cases h.of_append_right with
  | name _ he _ => exact he

/-- In front of a chain no name ends in a separator. -/
theorem Proper.not_endsInJoint {ps qs : List Piece} {c : Chain} (h : Proper (ps ++ .name c :: qs)) :
    ¬ EndsInJoint (ps.flatMap Piece.bytes) := by
  rintro ⟨r, b, x, he, hb, hx⟩
  rcases List.eq_nil_or_concat' ps with rfl | ⟨l, p, rfl⟩
  · simp at he
  · rw [List.append_assoc] at h
    cases p with
    | name c' =>
      cases h.of_append_right with
      | name _ he _ => exact he
    | other y =>
      rw [List.flatMap_append, show r ++ [b, x] = (r ++ [b]) ++ [x] by simp] at he
      obtain ⟨hl, hy⟩ := List.append_inj' he rfl
      cases hy
      obtain ⟨l, c', rfl⟩ := h.exists_eq_concat hl hb
      rw [List.append_assoc] at h
      cases h.of_append_right with
      | name _ he _ => exact absurd hx (Bool.eq_false_iff.1 he)

/-- A chain among the pieces of a text is replaced. -/
def SpanIn (t : Table) (pieces : List Piece) (before old new after : Bytes) : Prop :=
  ∃ ps c qs s, pieces = ps ++ .name c :: qs ∧ c.span? t = some s ∧
    before = ps.flatMap Piece.bytes ++ s.codes ∧ old = s.old ∧ new = s.new ∧
    after = s.behind ++ qs.flatMap Piece.bytes

/-- The spans that are replaced are those of the chains. -/
theorem replaces_iff {t : Table} {before old new after : Bytes} :
    Replaces t before old new after ↔
      SpanIn t (pieces (before ++ old ++ after)) before old new after := by
  constructor
  · rintro ⟨hb, hcand, hext, hl, hne, hj⟩
    rename_i before run after codes root fixed rest n r j
    obtain ⟨more, qs, hp, rfl, -⟩ := exists_pieces_run hb.segment hext.runs hext.ends
    have htext : before ++ codes ++ (root ++ runBytes (rest.take (n - 1))) ++
        (runBytes (rest.drop (n - 1)) ++ (runBytes more ++ qs.flatMap Piece.bytes)) =
        before ++ (run ++ runBytes rest ++ (runBytes more ++ qs.flatMap Piece.bytes)) := by
      have hrest : runBytes rest = runBytes (rest.take (n - 1)) ++ runBytes (rest.drop (n - 1)) := by
        rw [← Chain.runBytes_append, List.take_append_drop]
      simp [← hcand.append_eq, hrest]
    have hpieces := pieces_append hb.left hb.fresh
      (run ++ runBytes rest ++ (runBytes more ++ qs.flatMap Piece.bytes))
    rw [hp] at hpieces
    have hc : (Chain.mk run (rest ++ more)).IsProper :=
      (hpieces ▸ proper_pieces _).isProper_of_mem (List.mem_append_right _ List.mem_cons_self)
    have hsame : sameJoint fixed (rest ++ more) = rest :=
      sameJoint_append hext fun p h => hc.rest p (List.mem_append_right _ h)
    have hn : n - 1 ≤ rest.length := by
      have := hl.covers.2.1
      simp only [List.length_cons, List.length_map] at this
      omega
    refine ⟨pieces before, _, qs, ⟨codes, root ++ runBytes (rest.take (n - 1)),
      [j].intercalate (Name.segments r.target), runBytes (rest.drop (n - 1)) ++ runBytes more⟩,
      by rw [htext, hpieces],
      (Chain.span?_eq_some_iff hc).2 ⟨codes, root, fixed, n, r, j, hcand, ?_, hne, ?_, ?_⟩,
      by rw [flatMap_bytes_pieces], rfl, rfl, by simp⟩
    · rwa [hsame]
    · rwa [hsame]
    · rw [List.take_append_of_le_length hn, List.drop_append_of_le_length hn, Chain.runBytes_append]
  · rintro ⟨ps, c, qs, s, hp, hs, rfl, rfl, rfl, rfl⟩
    have hpr : Proper (ps ++ .name c :: qs) := hp ▸ proper_pieces _
    obtain ⟨hc, he, hq⟩ : c.IsProper ∧ EndsChain qs ∧ Proper qs := by
      cases hpr.of_append_right with
      | name hc he hq => exact ⟨hc, he, hq⟩
    obtain ⟨codes, root, fixed, n, r, j, hcand, hl, hne, hj, rfl⟩ := (Chain.span?_eq_some_iff hc).1 hs
    obtain ⟨more, hrest, hext⟩ := extends_sameJoint hc hq he fixed
    have hn : n - 1 ≤ (sameJoint fixed c.rest).length := by
      have := hl.covers.2.1
      simp only [List.length_cons, List.length_map] at this
      omega
    generalize sameJoint fixed c.rest = rest at *
    have hbegins : BeginsName (ps.flatMap Piece.bytes) c.first
        (runBytes rest ++ (runBytes more ++ qs.flatMap Piece.bytes)) := by
      refine ⟨hc.first, hpr.not_endsInRun, ?_, hpr.not_endsInJoint⟩
      cases rest with
      | nil => exact hext.ends
      | cons p rest =>
        rintro ⟨b, s, h, hb⟩
        obtain ⟨rfl, -⟩ := List.cons.inj h
        simp [isIdent_of_isSeparator (hext.runs p List.mem_cons_self).1] at hb
    rw [hrest, List.take_append_of_le_length hn, List.drop_append_of_le_length hn,
      Chain.runBytes_append, List.append_assoc (runBytes (rest.drop (n - 1)))]
    exact .intro hbegins hcand hext hl hne hj

end PackageMigration
