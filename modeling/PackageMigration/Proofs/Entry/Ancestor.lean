import PackageMigration.Proofs.Entry.Name
/-
  What a built-in table does to a name and to the directories above it.

  * `CutsAt`: the pieces of a text up to a slash.

  Main statements: `exists_convert_cut` (a converted text up to a slash), `exists_eq_of_renameEntry?`
  (the directories above a new name are those above the old one, moved; each has its own new name).
-/
namespace PackageMigration

open Profile (oldRoot newRoot)

/-! ## Pieces up to a slash -/

/-- The pieces of a text up to a slash. The slash stands alone, or it joins two runs of a chain. -/
inductive CutsAt : List Piece → List Piece → Prop
  | between {before after : List Piece} :
      CutsAt (before ++ .other Byte.slash :: after) (before ++ [.other Byte.slash])
  | within {before after : List Piece} {first s : Bytes} {rest rest' : List (UInt8 × Bytes)} :
      CutsAt (before ++ .name ⟨first, rest ++ (Byte.slash, s) :: rest'⟩ :: after)
        (before ++ [.name ⟨first, rest⟩, .other Byte.slash])

theorem EndsChain.of_append {ps qs : List Piece} (h : EndsChain (ps ++ qs)) : EndsChain ps := by
  match ps, h with
  | [], _ => trivial
  | [.other _], _ => trivial
  | .other _ :: .other _ :: _, _ => trivial
  | .other _ :: .name _ :: _, h => exact h

theorem Proper.of_append_left {ps qs : List Piece} (h : Proper (ps ++ qs)) : Proper ps := by
  induction ps with
  | nil => exact .nil
  | cons p ps ih =>
    cases h with
    | other hb h => exact .other hb (ih h)
    | name hc he h => exact .name hc he.of_append (ih h)

namespace CutsAt

variable {ps front : List Piece}

theorem cons (q : Piece) (h : CutsAt ps front) : CutsAt (q :: ps) (q :: front) := by
  cases h with
  | @between before after => exact @between (q :: before) after
  | @within before after first s rest rest' => exact @within (q :: before) after first s rest rest'

/-- The pieces up to a slash are the pieces of a text. -/
theorem proper (h : CutsAt ps front) (hps : Proper ps) : Proper front := by
  cases h with
  | @between before after =>
    rw [List.append_cons] at hps
    exact hps.of_append_left
  | @within before after first s rest rest' =>
    induction before with
    | nil =>
      cases hps with
      | name hc _ _ =>
        have hrest : ∀ p ∈ rest, isSeparator p.1 ∧ Name.IsSegment p.2 := fun p hp =>
          hc.rest p (List.mem_append_left _ hp)
        exact .name ⟨hc.first, hrest⟩ trivial (.other (by decide) .nil)
    | cons q before ih =>
      cases hps with
      | other hb hps => exact .other hb (ih hps)
      | name hc he hps =>
        refine .name hc ?_ (ih hps)
        match before, he with
        | [.other _], he => exact he
        | .other _ :: .other _ :: _, _ => trivial
        | .other _ :: .name _ :: _, he => exact he

theorem exists_bytes_eq (h : CutsAt ps front) :
    ∃ u w, front.flatMap Piece.bytes = u ++ [Byte.slash] ∧
      ps.flatMap Piece.bytes = u ++ Byte.slash :: w := by
  cases h with
  | @between before after =>
    exact ⟨before.flatMap Piece.bytes, after.flatMap Piece.bytes, by simp [Piece.bytes],
      by simp [Piece.bytes]⟩
  | @within before after first s rest rest' =>
    refine ⟨before.flatMap Piece.bytes ++ (first ++ runBytes rest),
      s ++ runBytes rest' ++ after.flatMap Piece.bytes, ?_, ?_⟩ <;>
    simp [Piece.bytes, Chain.bytes, runBytes]

end CutsAt

/-- A slash behind the first run of a chain joins two of its runs. -/
theorem exists_rest_eq {first : Bytes} {rest : List (UInt8 × Bytes)} (hfirst : Byte.slash ∉ first)
    (hrest : ∀ p ∈ rest, Byte.slash ∉ p.2) {u w : Bytes}
    (h : first ++ runBytes rest = u ++ Byte.slash :: w) :
    ∃ rest₁ s rest₂, rest = rest₁ ++ (Byte.slash, s) :: rest₂ ∧ u = first ++ runBytes rest₁ := by
  induction rest generalizing first u with
  | nil =>
    have hmem : Byte.slash ∈ first ++ runBytes [] := by rw [h]; simp
    rw [runBytes, List.flatMap_nil, List.append_nil] at hmem
    exact absurd hmem hfirst
  | cons p rest ih =>
    obtain ⟨j, s⟩ := p
    obtain ⟨hs, hrest⟩ := List.forall_mem_cons.1 hrest
    have hcons : first ++ runBytes ((j, s) :: rest) = first ++ j :: (s ++ runBytes rest) := by
      simp [runBytes]
    rw [hcons] at h
    rcases List.append_eq_append_iff.1 h with ⟨v, rfl, hv⟩ | ⟨v, rfl, hv⟩
    · cases v with
      | nil =>
        obtain ⟨rfl, -⟩ := List.cons.inj hv
        exact ⟨[], s, rest, rfl, by simp [runBytes]⟩
      | cons b v =>
        obtain ⟨rfl, hbehind⟩ := List.cons.inj hv
        obtain ⟨rest₁, s', rest₂, rfl, rfl⟩ := ih hs hrest hbehind
        exact ⟨(j, s) :: rest₁, s', rest₂, rfl, by simp [runBytes]⟩
    · cases v with
      | nil =>
        obtain ⟨rfl, -⟩ := List.cons.inj hv
        exact ⟨[], s, rest, rfl, by simp [runBytes]⟩
      | cons b v =>
        obtain ⟨rfl, -⟩ := List.cons.inj hv
        exact absurd (by simp) hfirst

theorem exists_cutsAt {ps : List Piece} (hps : Proper ps) {u w : Bytes}
    (h : ps.flatMap Piece.bytes = u ++ Byte.slash :: w) :
    ∃ front, CutsAt ps front ∧ front.flatMap Piece.bytes = u ++ [Byte.slash] := by
  induction hps generalizing u with
  | nil => simp at h
  | @other b ps _ _ ih =>
    rw [List.flatMap_cons, Piece.bytes, List.singleton_append] at h
    cases u with
    | nil =>
      obtain ⟨rfl, -⟩ := List.cons.inj h
      exact ⟨_, @CutsAt.between [] ps, rfl⟩
    | cons b' u =>
      obtain ⟨rfl, hbehind⟩ := List.cons.inj h
      obtain ⟨front, hcut, hfront⟩ := ih hbehind
      exact ⟨_, hcut.cons _, by rw [List.flatMap_cons, hfront]; rfl⟩
  | @name c ps hc he _ ih =>
    rw [List.flatMap_cons, Piece.bytes] at h
    have hbehind : ∀ v, ps.flatMap Piece.bytes = v ++ Byte.slash :: w → u = c.bytes ++ v →
        ∃ front, CutsAt (.name c :: ps) front ∧ front.flatMap Piece.bytes = u ++ [Byte.slash] := by
      rintro v hv rfl
      obtain ⟨front, hcut, hfront⟩ := ih hv
      exact ⟨_, hcut.cons _, by rw [List.flatMap_cons, hfront, Piece.bytes, List.append_assoc]⟩
    rcases List.append_eq_append_iff.1 h with ⟨v, hu, hv⟩ | ⟨v, hu, hv⟩
    · exact hbehind v hv hu
    · cases v with
      | nil => exact hbehind [] hv.symm (by rw [hu, List.append_nil, List.append_nil])
      | cons b v =>
        obtain ⟨rfl, -⟩ := List.cons.inj hv
        obtain ⟨first, rest⟩ := c
        obtain ⟨rest₁, s, rest₂, rfl, rfl⟩ := exists_rest_eq (hc.first.notMem (by decide))
          (fun p hp => (hc.rest p hp).2.notMem (by decide)) hu
        refine ⟨_, @CutsAt.within [] ps first s rest₁ rest₂, ?_⟩
        simp [Piece.bytes, Chain.bytes]

/-! ## Converted texts up to a slash -/

/-- A piece is converted once. -/
theorem Table.IsSettled.converted_moved {t : Table} (h : t.IsSettled) (q : Piece) :
    (q.moved t).converted t = q.converted t := by
  rw [← Piece.bytes_moved, ← Piece.bytes_moved]
  cases q with
  | other => rfl
  | name c =>
    simp only [Piece.moved]
    cases hm : c.moved? t with
    | none => rw [Option.getD_none, hm, Option.getD_none]
    | some c' => rw [Option.getD_some, h.moved?_eq_none hm, Option.getD_none]

/-- The pieces up to a slash are moved like the whole text, but a name that the slash cuts off need not
be converted any more. Then it is not converted as it was before either. -/
theorem CutsAt.exists_moved (p : Profile) {ps front : List Piece} (h : CutsAt ps front)
    (hps : Proper ps) :
    ∃ front', CutsAt (ps.map (Piece.moved p.table)) front' ∧
      Moved oldRoot newRoot (front.flatMap Piece.bytes) (front'.flatMap Piece.bytes) ∧
      ((∀ c, .name c ∈ front' → c.moved? p.table = none) ∨
        front'.flatMap (Piece.converted p.table) = front.flatMap (Piece.converted p.table)) := by
  have hmoved : ∀ {qs : List Piece}, (∀ q ∈ qs, q ∈ ps) →
      Moved oldRoot newRoot (qs.flatMap Piece.bytes)
        ((qs.map (Piece.moved p.table)).flatMap Piece.bytes) := by
    intro qs hqs
    rw [List.flatMap_map]
    refine Moved.flatMap fun q hq => ?_
    rw [Piece.bytes_moved]
    exact p.moved_piece fun c hc => hps.isProper_of_mem (hc ▸ hqs q hq)
  have hconverted : ∀ qs : List Piece, (qs.map (Piece.moved p.table)).flatMap (Piece.converted p.table) =
      qs.flatMap (Piece.converted p.table) := by
    intro qs
    simp only [List.flatMap_map, p.isSettled_table.converted_moved]
  cases h with
  | @between before after =>
    refine ⟨(before ++ [Piece.other Byte.slash]).map (Piece.moved p.table), ?_, hmoved fun q hq => ?_,
      .inr (hconverted _)⟩
    · rw [List.map_append, List.map_append, List.map_cons, List.map_cons]
      exact between
    · rw [List.append_cons]
      exact List.mem_append_left _ hq
  | @within before after first s rest rest' =>
    have hbefore := @hmoved before fun q hq => List.mem_append_left _ hq
    have hcut : ∀ first', Piece.moved p.table (.name ⟨first, rest ++ (Byte.slash, s) :: rest'⟩) =
        .name ⟨first', rest ++ (Byte.slash, s) :: rest'⟩ →
          CutsAt ((before ++ .name ⟨first, rest ++ (Byte.slash, s) :: rest'⟩ :: after).map
            (Piece.moved p.table))
            (before.map (Piece.moved p.table) ++ [.name ⟨first', rest⟩, .other Byte.slash]) := by
      intro first' hfirst
      rw [List.map_append, List.map_cons, hfirst]
      exact within
    have hbytes : ∀ {first'}, Moved oldRoot newRoot first first' →
        Moved oldRoot newRoot ((before ++ [Piece.name ⟨first, rest⟩, .other Byte.slash]).flatMap Piece.bytes)
          ((before.map (Piece.moved p.table) ++
            [Piece.name ⟨first', rest⟩, .other Byte.slash]).flatMap Piece.bytes) := by
      intro first' hfirst
      rw [List.flatMap_append, List.flatMap_append]
      refine hbefore.append ?_
      simp only [List.flatMap_cons, Piece.bytes, Chain.bytes]
      exact (hfirst.append (.refl _ _ _)).append (.refl _ _ _)
    cases hm : Chain.moved? p.table ⟨first, rest ++ (Byte.slash, s) :: rest'⟩ with
    | none =>
      refine ⟨_, hcut first (by rw [Piece.moved, hm, Option.getD_none]), hbytes (.refl _ _ _), .inr ?_⟩
      rw [List.flatMap_append, hconverted, List.flatMap_append]
    | some c' =>
      obtain ⟨codes, rfl, rfl⟩ := Profile.eq_of_moved? (hps.isProper_of_mem (by simp)) hm
      refine ⟨_, hcut (codes ++ newRoot) (by rw [Piece.moved, hm, Option.getD_some]),
        hbytes ((Moved.refl _ _ _).append (.swap .nil)), .inl fun c hc => ?_⟩
      rcases List.mem_append.1 hc with hc | hc
      · obtain ⟨q, -, hq⟩ := List.mem_map.1 hc
        cases q with
        | other => cases hq
        | name c₁ =>
          obtain rfl := Piece.name.inj hq
          cases hm₁ : c₁.moved? p.table with
          | none => exact hm₁
          | some c₂ => exact p.isSettled_table.moved?_eq_none hm₁
      · obtain rfl : c = ⟨codes ++ newRoot, rest⟩ := by simpa using hc
        -- where a name can start depends on the first run alone
        have hwhole := p.isSettled_table.candidate?_eq_none hm
        have hfront : Chain.candidate? p.table ⟨codes ++ newRoot, rest⟩ = none := hwhole
        rw [Chain.moved?, hfront]
        rfl

/-- **What stands in a converted text up to a slash** stood there before with `javax` for some `jakarta`.
If it would be converted itself, then to what the old text up to there is converted to. -/
theorem Profile.exists_convert_cut (p : Profile) (u w : Bytes) :
    ∃ u' w', p.table.convert (u ++ Byte.slash :: w) = u' ++ Byte.slash :: w' ∧
      Moved oldRoot newRoot (u ++ [Byte.slash]) (u' ++ [Byte.slash]) ∧
      ∀ new, p.table.convert? (u' ++ [Byte.slash]) = some new →
        p.table.convert (u ++ [Byte.slash]) = new := by
  have hproper := proper_pieces (u ++ Byte.slash :: w)
  obtain ⟨front, hcut, hfront⟩ := exists_cutsAt hproper (flatMap_bytes_pieces _)
  obtain ⟨front', hcut', hmoved, hconverted⟩ := hcut.exists_moved p hproper
  rw [← pieces_convert] at hcut'
  obtain ⟨u', w', hu', hw'⟩ := hcut'.exists_bytes_eq
  rw [flatMap_bytes_pieces] at hw'
  rw [hfront, hu'] at hmoved
  refine ⟨u', w', hw', hmoved, fun new hnew => ?_⟩
  have hpieces : pieces (u ++ [Byte.slash]) = front := by
    rw [← hfront, pieces_flatMap_bytes (hcut.proper hproper)]
  have hpieces' : pieces (u' ++ [Byte.slash]) = front' := by
    rw [← hu', pieces_flatMap_bytes (hcut'.proper (proper_pieces _))]
  rcases hconverted with hnone | hsame
  · rw [Table.convert?_eq_none_iff.2 (hpieces' ▸ hnone)] at hnew
    cases hnew
  · rw [← Table.convert_of_convert? hnew, Table.convert_eq_flatMap, Table.convert_eq_flatMap, hpieces,
      hpieces', hsame]

/-! ## New names up to a slash -/

/-- A name in the class root of another one that begins with it has the same class root. -/
theorem EntryName.classRoot_of_append {u w v : Bytes} (h : u = classRoot (u ++ w) ++ v) :
    classRoot u = classRoot (u ++ w) := by
  have hfalse : ∀ root : Bytes, ¬ root.isPrefixOf (u ++ w) → ¬ root.isPrefixOf u := by
    intro root hr hu
    rw [List.isPrefixOf_iff_prefix] at hr hu
    exact hr (hu.trans (List.prefix_append u w))
  generalize hroot : classRoot (u ++ w) = root at h
  unfold classRoot at hroot ⊢
  cases hfind : classRoots.find? fun root => root.isPrefixOf (u ++ w) with
  | some root' =>
    rw [hfind] at hroot
    obtain rfl : root' = root := hroot
    obtain ⟨-, before, after, hroots, hbefore⟩ := List.find?_eq_some_iff_append.1 hfind
    have hfind' : (classRoots.find? fun root => root.isPrefixOf u) = some root' := by
      refine List.find?_eq_some_iff_append.2
        ⟨List.isPrefixOf_iff_prefix.2 ⟨v, h.symm⟩, before, after, hroots, fun r hr => ?_⟩
      have hr := hbefore r hr
      rw [Bool.not_eq_true'] at hr ⊢
      exact Bool.eq_false_iff.2 (hfalse r (Bool.eq_false_iff.1 hr))
    rw [hfind']
  | none =>
    rw [hfind] at hroot
    have hfind' : (classRoots.find? fun root => root.isPrefixOf u) = none := by
      rw [List.find?_eq_none] at hfind ⊢
      exact fun r hr => hfalse r (hfind r hr)
    rw [hfind']
    dsimp only at hroot ⊢
    rw [← hroot]
    refine congrArg (Option.getD · []) (Option.ext fun r => ?_)
    simp only [versionRoot?_eq_some_iff]
    constructor
    · rintro ⟨version, rest, hr, rfl, hne, hd⟩
      exact ⟨version, rest ++ w, hr, by rw [List.append_assoc], hne, hd⟩
    · rintro ⟨version, rest, hr, hname, hne, hd⟩
      have hversion : versionRoot? (u ++ w) = some r :=
        versionRoot?_eq_some_iff.2 ⟨version, rest, hr, hname, hne, hd⟩
      rw [hversion] at hroot
      obtain rfl : r = root := hroot
      exact ⟨version, v, hr, h, hne, hd⟩

section
variable {t : Table} {name rest : Bytes} (h : name = EntryName.classRoot name ++ rest)
include h

theorem Table.renameEntry?_classRoot_append :
    t.renameEntry? name = (t.convertText? rest).map (EntryName.classRoot name ++ ·) := by
  have hdrop : name.drop (EntryName.classRoot name).length = rest :=
    (congrArg (List.drop (EntryName.classRoot name).length) h).trans List.drop_left
  rw [Table.renameEntry?, hdrop]

theorem Table.getD_renameEntry? (htext : Bytes.IsText (t.convert rest)) :
    (t.renameEntry? name).getD name = EntryName.classRoot name ++ t.convert rest := by
  rw [Table.renameEntry?_classRoot_append h]
  cases hc : t.convert? rest with
  | none =>
    rw [Table.convertText?, hc, Table.convert, hc]
    exact h
  | some new =>
    rw [Table.convert_of_convert? hc] at htext ⊢
    rw [Table.convertText?_eq_some_iff.2 ⟨hc, htext⟩]
    rfl

end

/-- What stands in a new name up to a slash is what stood in the old one up to one, moved. If it would
get a new name itself, then what stood there before would get the same one. -/
theorem Profile.exists_renameEntry?_cut (p : Profile) (u w : Bytes) :
    ∃ u' w', (p.table.renameEntry? (u ++ Byte.slash :: w)).getD (u ++ Byte.slash :: w) =
        u' ++ Byte.slash :: w' ∧
      Moved oldRoot newRoot (u ++ [Byte.slash]) (u' ++ [Byte.slash]) ∧
      ∀ new, p.table.renameEntry? (u' ++ [Byte.slash]) = some new →
        (p.table.renameEntry? (u ++ [Byte.slash])).getD (u ++ [Byte.slash]) = new := by
  cases hname : p.table.renameEntry? (u ++ Byte.slash :: w) with
  | none => exact ⟨u, w, rfl, .refl _ _ _, fun new hnew => by rw [hnew, Option.getD_some]⟩
  | some name' =>
    obtain ⟨rest, rest', hold, rfl, hr⟩ := Table.renameEntry?_eq_some_iff.1 hname
    rw [Option.getD_some]
    by_cases hinside : EntryName.classRoot (u ++ Byte.slash :: w) <+: u
    · generalize hroot : EntryName.classRoot (u ++ Byte.slash :: w) = root at hinside hold ⊢
      obtain ⟨v, rfl⟩ := hinside
      obtain rfl : v ++ Byte.slash :: w = rest := by
        rw [List.append_assoc] at hold
        exact List.append_cancel_left hold
      obtain ⟨v', w', hconvert, hmoved, hnew⟩ := p.exists_convert_cut v w
      rw [Table.convert_of_convert? (Table.convertText?_eq_some_iff.1 hr).1] at hconvert
      have hmoved' : Moved oldRoot newRoot (root ++ (v ++ [Byte.slash])) (root ++ (v' ++ [Byte.slash])) :=
        (Moved.refl _ _ root).append hmoved
      have hcut : EntryName.classRoot (root ++ (v ++ [Byte.slash])) = root := by
        have happend := EntryName.classRoot_of_append (u := root ++ (v ++ [Byte.slash])) (w := w)
          (v := v ++ [Byte.slash])
        simp only [List.append_assoc, List.cons_append, List.nil_append] at happend hroot ⊢
        rw [hroot] at happend
        exact happend rfl
      have hcut' : EntryName.classRoot (root ++ (v' ++ [Byte.slash])) = root :=
        (EntryName.classRoot_moved (.inl rfl) (.inr rfl) hmoved').trans hcut
      refine ⟨root ++ v', w', by rw [hconvert, List.append_assoc], by simpa using hmoved', fun new h => ?_⟩
      rw [List.append_assoc, Table.renameEntry?_classRoot_append (by rw [hcut']), hcut'] at h
      obtain ⟨more, hmore, rfl⟩ := Option.map_eq_some_iff.1 h
      obtain ⟨hmore, htext⟩ := Table.convertText?_eq_some_iff.1 hmore
      have hsame := hnew more hmore
      rw [List.append_assoc, Table.getD_renameEntry? (by rw [hcut]) (hsame ▸ htext), hcut, hsame]
    · rcases List.append_eq_append_iff.1 hold with ⟨v, hroot, hv⟩ | ⟨v, hu, -⟩
      · cases v with
        | nil => exact absurd (hroot ▸ by simp) hinside
        | cons b v =>
          obtain ⟨rfl, -⟩ := List.cons.inj hv
          refine ⟨u, v ++ rest', ?_, .refl _ _ _, fun new hnew => by rw [hnew, Option.getD_some]⟩
          rw [hroot, List.append_assoc, List.cons_append]
      · exact absurd ⟨v, hu.symm⟩ hinside

/-- **What stands in front of a slash in a new name** stood in front of one in the old name, with `javax`
for some `jakarta`. If it would get a new name itself, then the one of what stood there before. -/
theorem Profile.exists_eq_of_renameEntry? {p : Profile} {name u' w' : Bytes}
    (h : (p.table.renameEntry? name).getD name = u' ++ Byte.slash :: w') :
    ∃ u w, name = u ++ Byte.slash :: w ∧ Moved oldRoot newRoot u u' ∧ Moved oldRoot newRoot w w' ∧
      ∀ new, p.table.renameEntry? (u' ++ [Byte.slash]) = some new →
        (p.table.renameEntry? (u ++ [Byte.slash])).getD (u ++ [Byte.slash]) = new := by
  have hmoved : Moved newRoot oldRoot (u' ++ Byte.slash :: w') name :=
    h ▸ (p.moved_getD_renameEntry? name).symm
  obtain ⟨u, w, rfl, hu, hw⟩ := hmoved.append_cons (by decide)
  obtain ⟨u₁, w₁, hcut, hu₁, hnew⟩ := p.exists_renameEntry?_cut u w
  -- both cuts are made behind as many parts
  have hlength : (Bytes.splitOn Byte.slash u₁).length = (Bytes.splitOn Byte.slash u').length := by
    have hlength₁ := (hu₁.splitOn (b := Byte.slash) (by decide) (by decide)).length_eq
    have hlength' := (hu.splitOn (b := Byte.slash) (by decide) (by decide)).length_eq
    rw [Bytes.splitOn_append, Bytes.splitOn_append, List.length_append, List.length_append] at hlength₁
    omega
  have hparts := congrArg (Bytes.splitOn Byte.slash) (hcut.symm.trans h)
  rw [Bytes.splitOn_append, Bytes.splitOn_append] at hparts
  obtain rfl : u₁ = u' := Bytes.eq_of_splitOn_eq (List.append_inj hparts hlength).1
  exact ⟨u, w, rfl, hu.symm, hw.symm, hnew⟩

end PackageMigration
