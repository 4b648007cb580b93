import PackageMigration.Mapping.Text
/-
  Which pieces a text has.

  * `Chain.IsProper`: a chain that can stand in a text; `EndsChain`: what can stand behind it.
  * `Proper`: pieces in which every chain is as long as it can be.

  Main statements: `proper_pieces`, `pieces_flatMap_bytes` (a text has the proper pieces that spell
  it), `pieces_append`, `pieces_append_cons` (a text cut where no name goes on).
-/
namespace PackageMigration

theorem isIdent_of_isSeparator {b : UInt8} (h : isSeparator b) : Name.isIdent b = false := by
  simp only [isSeparator, Bool.or_eq_true, beq_iff_eq] at h
  rcases h with rfl | rfl <;> decide

namespace Chain

/-- Every run is a segment and every joint a separator. -/
structure IsProper (c : Chain) : Prop where
  first : Name.IsSegment c.first
  rest : ∀ p ∈ c.rest, isSeparator p.1 ∧ Name.IsSegment p.2

/-- A chain ends in an identifier byte. -/
theorem IsProper.exists_bytes_eq {c : Chain} (h : c.IsProper) :
    ∃ s b, c.bytes = s ++ [b] ∧ Name.isIdent b := by
  have run : ∀ {r : Bytes}, Name.IsSegment r → ∃ s b, r = s ++ [b] ∧ Name.isIdent b := by
    intro r hr
    refine ⟨r.dropLast, r.getLast hr.1, (List.dropLast_concat_getLast hr.1).symm, ?_⟩
    exact hr.2 _ (List.getLast_mem hr.1)
  obtain ⟨first, rest⟩ := c
  rcases List.eq_nil_or_concat rest with rfl | ⟨ps, p, rfl⟩
  · obtain ⟨s, b, hs, hb⟩ := run h.first
    exact ⟨s, b, by simpa [bytes, runBytes] using hs, hb⟩
  · obtain ⟨s, b, hs, hb⟩ := run (h.rest p (by simp)).2
    exact ⟨first ++ runBytes ps ++ p.1 :: s, b, by simp [bytes, runBytes, hs], hb⟩

end Chain

/-- A chain may end in front of these pieces: nothing in them could be joined to it. -/
def EndsChain : List Piece → Prop
  | .name _ :: _ => False
  | .other s :: .name _ :: _ => isSeparator s = false
  | _ => True

/-- Pieces in which every chain is as long as it can be. -/
inductive Proper : List Piece → Prop
  | nil : Proper []
  | other {b : UInt8} {ps : List Piece} :
      Name.isIdent b = false → Proper ps → Proper (.other b :: ps)
  | name {c : Chain} {ps : List Piece} :
      c.IsProper → EndsChain ps → Proper ps → Proper (.name c :: ps)

/-! ## One more byte -/

namespace Piece

theorem cons_of_not_isIdent {b : UInt8} (h : Name.isIdent b = false) (ps : List Piece) :
    cons b ps = other b :: ps := by
  simp [cons, h]

theorem cons_name {b : UInt8} (h : Name.isIdent b) (c : Chain) (ps : List Piece) :
    cons b (name c :: ps) = name ⟨b :: c.first, c.rest⟩ :: ps := by
  simp [cons, h]

theorem cons_separator {b s : UInt8} (h : Name.isIdent b) (hs : isSeparator s) (c : Chain)
    (ps : List Piece) :
    cons b (other s :: name c :: ps) = name ⟨[b], (s, c.first) :: c.rest⟩ :: ps := by
  simp [cons, h, hs]

theorem cons_of_endsChain {b : UInt8} (h : Name.isIdent b) {ps : List Piece} (hp : EndsChain ps) :
    cons b ps = name ⟨[b], []⟩ :: ps := by
  match ps, hp with
  | [], _ => simp [cons, h]
  | [other _], _ => simp [cons, h]
  | other _ :: other _ :: _, _ => simp [cons, h]
  | other s :: name _ :: _, hs => simp [cons, h, show isSeparator s = false from hs]

end Piece

theorem isSegment_singleton {b : UInt8} (h : Name.isIdent b) : Name.IsSegment [b] :=
  ⟨by simp, by simpa using h⟩

theorem proper_cons (b : UInt8) {ps : List Piece} (h : Proper ps) : Proper (Piece.cons b ps) := by
  cases hb : Name.isIdent b with
  | false => rw [Piece.cons_of_not_isIdent hb]; exact .other hb h
  | true =>
    have alone : EndsChain ps → Proper (Piece.cons b ps) := fun he => by
      rw [Piece.cons_of_endsChain hb he]
      exact .name ⟨isSegment_singleton hb, by simp⟩ he h
    cases h with
    | nil => exact alone trivial
    | @name c ps hc he h =>
      rw [Piece.cons_name hb]
      refine .name ⟨⟨by simp, ?_⟩, hc.rest⟩ he h
      simpa [hb] using hc.first.2
    | @other s ps hs h =>
      cases h with
      | nil => exact alone trivial
      | other => exact alone trivial
      | @name c ps hc he h =>
        cases hsep : isSeparator s with
        | false => exact alone hsep
        | true =>
          rw [Piece.cons_separator hb hsep]
          refine .name ⟨isSegment_singleton hb, ?_⟩ he h
          simp only [List.mem_cons, forall_eq_or_imp]
          exact ⟨⟨hsep, hc.first⟩, hc.rest⟩

theorem proper_pieces (s : Bytes) : Proper (pieces s) := by
  induction s with
  | nil => exact .nil
  | cons b s ih => rw [pieces_cons]; exact proper_cons b ih

/-! ## A text and its pieces -/

theorem pieces_append_eq_foldr (s s' : Bytes) : pieces (s ++ s') = s.foldr Piece.cons (pieces s') :=
  List.foldr_append

theorem foldr_cons_name {r : Bytes} (hr : ∀ b ∈ r, Name.isIdent b) (c : Chain) (ps : List Piece) :
    r.foldr Piece.cons (.name c :: ps) = .name ⟨r ++ c.first, c.rest⟩ :: ps := by
  induction r with
  | nil => rfl
  | cons b r ih =>
    rw [List.forall_mem_cons] at hr
    rw [List.foldr_cons, ih hr.2, Piece.cons_name hr.1, List.cons_append]

/-- A run is begun by its last byte. -/
theorem foldr_cons_segment {r : Bytes} (hr : Name.IsSegment r) {ps qs : List Piece}
    {rest : List (UInt8 × Bytes)}
    (h : ∀ b, Name.isIdent b → Piece.cons b ps = .name ⟨[b], rest⟩ :: qs) :
    r.foldr Piece.cons ps = .name ⟨r, rest⟩ :: qs := by
  have hl := List.dropLast_concat_getLast hr.1
  have hb := hr.2 _ (List.getLast_mem hr.1)
  have hd : ∀ b ∈ r.dropLast, Name.isIdent b := fun b hb => hr.2 b ((List.dropLast_subset r) hb)
  rw [← hl, List.foldr_append, List.foldr_cons, List.foldr_nil, h _ hb, foldr_cons_name hd, hl]

theorem foldr_cons_bytes {c : Chain} (hc : c.IsProper) {ps : List Piece} (he : EndsChain ps) :
    c.bytes.foldr Piece.cons ps = .name c :: ps := by
  obtain ⟨first, rest⟩ := c
  induction rest generalizing first with
  | nil =>
    rw [Chain.bytes, runBytes, List.flatMap_nil, List.append_nil]
    exact foldr_cons_segment hc.first fun b hb => Piece.cons_of_endsChain hb he
  | cons p rest ih =>
    obtain ⟨hp, hr⟩ := List.forall_mem_cons.1 hc.rest
    have hb : (Chain.mk first (p :: rest)).bytes = first ++ p.1 :: (Chain.mk p.2 rest).bytes := by
      simp [Chain.bytes, runBytes]
    rw [hb, List.foldr_append, List.foldr_cons, ih p.2 ⟨hp.2, hr⟩,
      Piece.cons_of_not_isIdent (isIdent_of_isSeparator hp.1)]
    exact foldr_cons_segment hc.first fun b hb => Piece.cons_separator hb hp.1 _ _

/-- **A text has the proper pieces that spell it.** -/
theorem pieces_flatMap_bytes {ps : List Piece} (h : Proper ps) :
    pieces (ps.flatMap Piece.bytes) = ps := by
  induction h with
  | nil => rfl
  | @other b ps hb _ ih =>
    rw [List.flatMap_cons, Piece.bytes, List.singleton_append, pieces_cons, ih,
      Piece.cons_of_not_isIdent hb]
  | @name c ps hc he _ ih =>
    rw [List.flatMap_cons, pieces_append_eq_foldr, ih]
    exact foldr_cons_bytes hc he

/-! ## Texts cut in two -/

theorem proper_append {ps qs : List Piece} (hp : Proper ps) (hq : Proper qs)
    (hn : ∀ l c, ps ≠ l ++ [.name c])
    (hs : ∀ l c s, ps = l ++ [.name c, .other s] → isSeparator s = false) : Proper (ps ++ qs) := by
  induction hp with
  | nil => exact hq
  | @other b ps hb hp ih =>
    refine .other hb (ih (fun l c h => hn (.other b :: l) c (by simp [h])) fun l c s h => ?_)
    exact hs (.other b :: l) c s (by simp [h])
  | @name c ps hc he hp ih =>
    refine .name hc ?_ (ih (fun l c' h => hn (.name c :: l) c' (by simp [h])) fun l c' s h => ?_)
    · match ps, he with
      | [], _ => exact absurd rfl (hn [] c)
      | [.other s], _ =>
        have hs := hs [] c s rfl
        match qs with
        | [] => trivial
        | .other _ :: _ => trivial
        | .name _ :: _ => exact hs
      | .other _ :: .other _ :: _, _ => trivial
      | .other _ :: .name _ :: _, he => exact he
    · exact hs (.name c :: l) c' s (by simp [h])

/-- The text ends in an identifier byte. -/
def EndsInRun (s : Bytes) : Prop := ∃ r b, s = r ++ [b] ∧ Name.isIdent b

/-- The text ends in an identifier byte and a separator: an identifier byte behind it goes on with
the name. -/
def EndsInJoint (s : Bytes) : Prop := ∃ r b c, s = r ++ [b, c] ∧ Name.isIdent b ∧ isSeparator c

theorem endsInRun_bytes {ps : List Piece} {c : Chain} (hc : c.IsProper) :
    EndsInRun ((ps ++ [Piece.name c]).flatMap Piece.bytes) := by
  obtain ⟨s, b, h, hb⟩ := hc.exists_bytes_eq
  exact ⟨ps.flatMap Piece.bytes ++ s, b, by simp [Piece.bytes, h], hb⟩

theorem endsInJoint_bytes {ps : List Piece} {c : Chain} (hc : c.IsProper) {s : UInt8}
    (hs : isSeparator s) : EndsInJoint ((ps ++ [Piece.name c, Piece.other s]).flatMap Piece.bytes) := by
  obtain ⟨r, b, h, hb⟩ := hc.exists_bytes_eq
  exact ⟨ps.flatMap Piece.bytes ++ r, b, s, by simp [Piece.bytes, h], hb, hs⟩

theorem Proper.isProper_of_mem {ps : List Piece} (h : Proper ps) {c : Chain} (hc : .name c ∈ ps) :
    c.IsProper := by
  induction h with
  | nil => simp at hc
  | other _ _ ih => exact ih (by simpa using hc)
  | name hc' _ _ ih =>
    rcases List.mem_cons.1 hc with h | h
    · cases h; exact hc'
    · exact ih h

/-- **A text may be cut where no name goes on.** -/
theorem pieces_append {s : Bytes} (hr : ¬ EndsInRun s) (hj : ¬ EndsInJoint s) (s' : Bytes) :
    pieces (s ++ s') = pieces s ++ pieces s' := by
  have hp := proper_pieces s
  have h : Proper (pieces s ++ pieces s') := by
    refine proper_append hp (proper_pieces s') (fun l c h => hr ?_) fun l c b h => ?_
    · rw [← flatMap_bytes_pieces s, h]
      exact endsInRun_bytes (hp.isProper_of_mem (c := c) (by simp [h]))
    · refine Bool.eq_false_iff.2 fun hb => hj ?_
      rw [← flatMap_bytes_pieces s, h]
      exact endsInJoint_bytes (hp.isProper_of_mem (c := c) (by simp [h])) hb
  rw [← pieces_flatMap_bytes h, List.flatMap_append, flatMap_bytes_pieces, flatMap_bytes_pieces]

theorem proper_append_other {ps qs : List Piece} (hp : Proper ps) {b : UInt8}
    (hb : Name.isIdent b = false) (hs : isSeparator b = false) (hq : Proper qs) :
    Proper (ps ++ .other b :: qs) := by
  induction hp with
  | nil => exact .other hb hq
  | other hb' _ ih => exact .other hb' ih
  | @name c ps hc he _ ih =>
    refine .name hc ?_ ih
    match ps, he with
    | [], _ =>
      match qs with
      | [] => trivial
      | .other _ :: _ => trivial
      | .name _ :: _ => exact hs
    | [.other _], _ => trivial
    | .other _ :: .other _ :: _, _ => trivial
    | .other _ :: .name _ :: _, he => exact he

/-- **A text may be cut at a byte that stands in no name.** -/
theorem pieces_append_cons {b : UInt8} (hb : Name.isIdent b = false) (hs : isSeparator b = false)
    (s s' : Bytes) : pieces (s ++ b :: s') = pieces s ++ .other b :: pieces s' := by
  have h := proper_append_other (proper_pieces s) hb hs (proper_pieces s')
  rw [← pieces_flatMap_bytes h, List.flatMap_append, List.flatMap_cons, flatMap_bytes_pieces,
    flatMap_bytes_pieces]
  rfl

end PackageMigration
