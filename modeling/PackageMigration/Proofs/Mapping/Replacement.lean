import PackageMigration.Proofs.Mapping.Occurrence
/-
  A converted text as its source with some spans replaced.

  * `Replacement`: a replaced span and the bytes in front of it that are kept.
  * `SpanOf`: a span among the replacements in a text.
  * `replacementsFrom`: the replacements in the pieces of a text.

  Main statement: `exists_replacements` (a text is converted by replacing exactly the spans of
  mapped names).
-/
namespace PackageMigration

/-- A replaced span, behind bytes that are kept. -/
structure Replacement where
  kept : Bytes
  old : Bytes
  new : Bytes

namespace Replacement

def source (e : Replacement) : Bytes := e.kept ++ e.old

def result (e : Replacement) : Bytes := e.kept ++ e.new

end Replacement

/-- One of the replacements in a text replaces `old` between `before` and `after`. -/
def SpanOf (rs : List Replacement) (tail before old new after : Bytes) : Prop :=
  ∃ es e es', rs = es ++ e :: es' ∧ before = es.flatMap Replacement.source ++ e.kept ∧ old = e.old ∧
    new = e.new ∧ after = es'.flatMap Replacement.source ++ tail

/-- The replacements in the pieces of a text behind bytes that are kept, and the bytes behind the last
one. -/
def replacementsFrom (t : Table) (kept : Bytes) : List Piece → List Replacement × Bytes
  | [] => ([], kept)
  | .other b :: ps => replacementsFrom t (kept ++ [b]) ps
  | .name c :: ps =>
    match c.span? t with
    | none => replacementsFrom t (kept ++ c.bytes) ps
    | some s =>
      let rest := replacementsFrom t s.behind ps
      (⟨kept ++ s.codes, s.old, s.new⟩ :: rest.1, rest.2)

theorem source_replacementsFrom (t : Table) (kept : Bytes) (ps : List Piece) :
    (replacementsFrom t kept ps).1.flatMap Replacement.source ++ (replacementsFrom t kept ps).2 =
      kept ++ ps.flatMap Piece.bytes := by
  fun_induction replacementsFrom t kept ps with
  | case1 => simp
  | case2 kept b ps ih => rw [ih]; simp [Piece.bytes]
  | case3 kept c ps _ ih => rw [ih]; simp [Piece.bytes]
  | case4 kept c ps s hs rest ih =>
    simp only [List.flatMap_cons, Replacement.source, List.append_assoc, Piece.bytes,
      Chain.bytes_eq_of_span? hs]
    rw [ih]

theorem result_replacementsFrom (t : Table) (kept : Bytes) (ps : List Piece) :
    (replacementsFrom t kept ps).1.flatMap Replacement.result ++ (replacementsFrom t kept ps).2 =
      kept ++ ps.flatMap (Piece.converted t) := by
  fun_induction replacementsFrom t kept ps with
  | case1 => simp
  | case2 kept b ps ih => rw [ih]; simp [Piece.converted, Piece.convert?, Piece.bytes]
  | case3 kept c ps hs ih =>
    rw [ih]; simp [Piece.converted, Piece.convert?, Chain.convert?_eq_map_span?, hs, Piece.bytes]
  | case4 kept c ps s hs rest ih =>
    have hc : Piece.converted t (.name c) = s.codes ++ s.new ++ s.behind := by
      simp [Piece.converted, Piece.convert?, Chain.convert?_eq_map_span?, hs]
    simp only [List.flatMap_cons, Replacement.result, List.append_assoc, hc]
    rw [ih]

theorem spanIn_cons {t : Table} {p : Piece} {ps : List Piece} {before old new after : Bytes} :
    SpanIn t (p :: ps) before old new after ↔
      (∃ c s, p = .name c ∧ c.span? t = some s ∧ before = s.codes ∧ old = s.old ∧ new = s.new ∧
        after = s.behind ++ ps.flatMap Piece.bytes) ∨
      ∃ b, before = p.bytes ++ b ∧ SpanIn t ps b old new after := by
  constructor
  · rintro ⟨ps', c, qs, s, hp, hs, rfl, ho, hn, ha⟩
    rcases List.cons_eq_append_iff.1 hp with ⟨rfl, h⟩ | ⟨ps'', rfl, rfl⟩
    · cases h
      exact .inl ⟨c, s, rfl, hs, by simp, ho, hn, ha⟩
    · exact .inr ⟨ps''.flatMap Piece.bytes ++ s.codes, by simp, ps'', c, qs, s, rfl, hs, rfl, ho, hn, ha⟩
  · rintro (⟨c, s, rfl, hs, rfl, ho, hn, ha⟩ | ⟨b, rfl, ps', c, qs, s, rfl, hs, rfl, ho, hn, ha⟩)
    · exact ⟨[], c, ps, s, rfl, hs, by simp, ho, hn, ha⟩
    · exact ⟨p :: ps', c, qs, s, rfl, hs, by simp, ho, hn, ha⟩

theorem spanOf_cons {e : Replacement} {es : List Replacement} {tail before old new after : Bytes} :
    SpanOf (e :: es) tail before old new after ↔
      (before = e.kept ∧ old = e.old ∧ new = e.new ∧ after = es.flatMap Replacement.source ++ tail) ∨
      ∃ b, before = e.source ++ b ∧ SpanOf es tail b old new after := by
  constructor
  · rintro ⟨l, e', l', h, rfl, ho, hn, ha⟩
    rcases List.cons_eq_append_iff.1 h with ⟨rfl, h⟩ | ⟨l, rfl, rfl⟩
    · cases h
      exact .inl ⟨rfl, ho, hn, ha⟩
    · exact .inr ⟨l.flatMap Replacement.source ++ e'.kept, by simp, l, e', l', rfl, rfl, ho, hn, ha⟩
  · rintro (⟨rfl, ho, hn, ha⟩ | ⟨b, rfl, l, e', l', rfl, rfl, ho, hn, ha⟩)
    · exact ⟨[], e, es, rfl, rfl, ho, hn, ha⟩
    · exact ⟨e :: l, e', l', rfl, by simp, ho, hn, ha⟩

/-- The replacements are the spans of the chains. -/
theorem spanOf_replacementsFrom_iff {t : Table} {kept : Bytes} {ps : List Piece}
    {before old new after : Bytes} :
    SpanOf (replacementsFrom t kept ps).1 (replacementsFrom t kept ps).2 before old new after ↔
      ∃ b, before = kept ++ b ∧ SpanIn t ps b old new after := by
  fun_induction replacementsFrom t kept ps generalizing before
  case case1 => simp [SpanOf, SpanIn]
  case case2 kept b ps ih => simp [ih, spanIn_cons, Piece.bytes, ← exists_and_left]
  case case3 kept c ps hs ih => simp [ih, spanIn_cons, Piece.bytes, hs]
  case case4 kept c ps s hs rest ih =>
    have hbytes : Piece.bytes (.name c) = s.codes ++ s.old ++ s.behind := Chain.bytes_eq_of_span? hs
    rw [spanOf_cons, source_replacementsFrom]
    constructor
    · rintro (⟨rfl, ho, hn, ha⟩ | ⟨b, rfl, h⟩)
      · exact ⟨s.codes, rfl, spanIn_cons.2 (.inl ⟨c, s, rfl, hs, rfl, ho, hn, ha⟩)⟩
      · obtain ⟨b', rfl, hb⟩ := ih.1 h
        refine ⟨s.codes ++ s.old ++ s.behind ++ b', by simp [Replacement.source], ?_⟩
        exact spanIn_cons.2 (.inr ⟨b', by rw [hbytes], hb⟩)
    · rintro ⟨b, rfl, h⟩
      rcases spanIn_cons.1 h with ⟨c', s', hc, hs', rfl, ho, hn, ha⟩ | ⟨b', rfl, hb⟩
      · obtain rfl := Piece.name.inj hc
        obtain rfl : s = s' := Option.some.inj (hs.symm.trans hs')
        exact .inl ⟨rfl, ho, hn, ha⟩
      · exact .inr ⟨s.behind ++ b', by simp [hbytes, Replacement.source], ih.2 ⟨b', rfl, hb⟩⟩

theorem replacementsFrom_eq_nil_iff {t : Table} {kept : Bytes} {ps : List Piece} :
    (replacementsFrom t kept ps).1 = [] ↔ ∀ p ∈ ps, p.convert? t = none := by
  fun_induction replacementsFrom t kept ps with
  | case1 => simp
  | case2 kept b ps ih => simp [ih, Piece.convert?]
  | case3 kept c ps hs ih => simp [ih, Piece.convert?, Chain.convert?_eq_map_span?, hs]
  | case4 kept c ps s hs ih => simp [Piece.convert?, Chain.convert?_eq_map_span?, hs]

/-- **A text is converted by replacing the spans of mapped names, all of them and no others.** Every
other byte stays in its place, and a text without such a span is left alone. -/
theorem exists_replacements (t : Table) (s : Bytes) :
    ∃ rs tail, s = rs.flatMap Replacement.source ++ tail ∧
      t.convert? s = (if rs = [] then none else some (rs.flatMap Replacement.result ++ tail)) ∧
      (∀ before old new after, SpanOf rs tail before old new after ↔
        s = before ++ old ++ after ∧ Replaces t before old new after) ∧
      (t.convert? s = none ↔
        ∀ before old new after, s = before ++ old ++ after → ¬ Replaces t before old new after) := by
  have hsource := source_replacementsFrom t [] (pieces s)
  have hresult := result_replacementsFrom t [] (pieces s)
  have hnil := @replacementsFrom_eq_nil_iff t [] (pieces s)
  have hspan := @spanOf_replacementsFrom_iff t [] (pieces s)
  rw [flatMap_bytes_pieces] at hsource
  simp only [List.nil_append] at hsource hresult hspan
  generalize replacementsFrom t [] (pieces s) = e at *
  obtain ⟨rs, tail⟩ := e
  have hconv : t.convert? s =
      if rs = [] then none else some (rs.flatMap Replacement.result ++ tail) := by
    have hany : ((pieces s).any fun p => (p.convert? t).isSome) = true ↔ ¬ rs = [] := by
      rw [hnil, List.any_eq_true]
      simp [Option.isSome_iff_ne_none]
    rw [hresult, Table.convert?]
    split <;> simp_all
  have hiff : ∀ before old new after, SpanOf rs tail before old new after ↔
      s = before ++ old ++ after ∧ Replaces t before old new after := by
    intro before old new after
    rw [hspan]
    constructor
    · rintro ⟨b, rfl, h⟩
      obtain rfl : s = before ++ old ++ after := by
        obtain ⟨ps, c, qs, sp, hp, hs, rfl, rfl, rfl, rfl⟩ := h
        rw [← flatMap_bytes_pieces s, hp]
        simp [Piece.bytes, Chain.bytes_eq_of_span? hs]
      exact ⟨rfl, replaces_iff.2 h⟩
    · rintro ⟨rfl, h⟩
      exact ⟨before, rfl, replaces_iff.1 h⟩
  refine ⟨rs, tail, hsource.symm, hconv, hiff, ?_⟩
  rw [hconv, ite_eq_left_iff]
  constructor
  · intro h before old new after hs hr
    obtain ⟨es, e, es', rfl, -⟩ := (hiff before old new after).2 ⟨hs, hr⟩
    exact absurd h (by simp)
  · intro h hne
    obtain ⟨e, es, rfl⟩ := List.exists_cons_of_ne_nil hne
    have hr := (hiff _ _ _ _).1 ⟨[], e, es, rfl, rfl, rfl, rfl, rfl⟩
    exact absurd hr.2 (h _ _ _ _ hr.1)

end PackageMigration
