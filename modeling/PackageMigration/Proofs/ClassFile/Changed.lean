import PackageMigration.Proofs.ClassFile.Conversion
/-
  What is reported as converted is changed.

  Main statements: `Chain.ne_of_moved?` (a name that moves is another one then),
  `Table.convert_eq_self_iff`, `Table.convertClass?_eq_some_iff_ne`, `Table.converts_iff_changes`.
-/
namespace PackageMigration

/-- A name that moves is another one then: source and target stand in it in the same separator. -/
theorem Chain.ne_of_moved? {t : Table} {c c' : Chain} (hc : c.IsProper) (h : c.moved? t = some c') :
    c' ≠ c := by
  obtain ⟨r, -, hne, codes, j, root, more, root', more', behind, hsource, htarget, hold, hnew⟩ :=
    exists_rule_of_moved? hc h
  rintro rfl
  obtain ⟨hfirst, hrest⟩ := Chain.mk.inj (hold.symm.trans hnew)
  have hroot : root = root' := List.append_cancel_left hfirst
  have hmore : more = more' :=
    List.map_injective_iff.2 (fun _ _ h => (Prod.mk.inj h).2) (List.append_cancel_right hrest)
  have hsegments : Name.segments r.source = Name.segments r.target := by
    rw [hsource, htarget, hroot, hmore]
  exact hne (Bytes.eq_of_splitOn_eq hsegments)

namespace Table

open ClassFile

variable {t : Table} {s out data : Bytes}

/-- **A text that comes out as it was holds no mapped name.** The pieces of a converted text are the
converted ones, so replacements cannot make up for each other. -/
theorem convert_eq_self_iff : t.convert s = s ↔ t.convert? s = none := by
  constructor
  · intro h
    have hpieces : (pieces s).map (Piece.moved t) = (pieces s).map id := by
      rw [← pieces_convert, h, List.map_id]
    rw [convert?_eq_none_iff]
    intro c hc
    by_contra hne
    obtain ⟨c', hm⟩ := Option.ne_none_iff_exists'.1 hne
    have hsame : Piece.moved t (.name c) = .name c := List.map_inj_left.1 hpieces _ hc
    rw [Piece.moved, hm, Option.getD_some] at hsame
    exact Chain.ne_of_moved? ((proper_pieces s).isProper_of_mem hc) hm (Piece.name.inj hsame)
  · intro h
    rw [convert, h, Option.getD_none]

theorem convert?_eq_some_iff_ne : t.convert? s = some out ↔ out = t.convert s ∧ out ≠ s := by
  constructor
  · intro h
    have hout : out = t.convert s := by rw [convert, h, Option.getD_some]
    refine ⟨hout, fun he => ?_⟩
    rw [convert_eq_self_iff.1 (hout.symm.trans he)] at h
    cases h
  · rintro ⟨rfl, hne⟩
    obtain ⟨out, hout⟩ := Option.ne_none_iff_exists'.1 (mt convert_eq_self_iff.2 hne)
    rw [convert, hout, Option.getD_some]

/-- A class file that is converted is one that comes out changed. -/
theorem convertClass?_eq_some_iff_ne :
    t.convertClass? data = .ok (some out) ↔
      ∃ c c', parse? data = .ok c ∧ parse? out = .ok c' ∧ t.Converted c c' ∧ out ≠ data := by
  constructor
  · intro h
    cases hp : parse? data with
    | error => rw [convertClass?_of_parse?_error hp] at h; cases h
    | ok c =>
      obtain ⟨-, hn, c', hout, hconverted⟩ := (convertClass?_eq_some_iff hp).1 h
      refine ⟨c, c', rfl, hout, hconverted, ?_⟩
      rintro rfl
      obtain rfl := Except.ok.inj (hp.symm.trans hout)
      obtain ⟨payload, hmem, hne⟩ := holdsName_iff.1 hn
      obtain ⟨i, hi⟩ := List.getElem?_of_mem hmem
      have hsame := hi.symm.trans (hconverted.texts i payload hi)
      exact hne (convert_eq_self_iff.1 (Slot.utf8.inj (Option.some.inj hsame)).symm)
  · rintro ⟨c, c', hp, hout, hconverted, hne⟩
    refine (convertClass?_eq_some_iff hp).2 ⟨?_, ?_, c', hout, hconverted⟩
    · rintro i n ⟨⟨payload, hi, rfl, hlt⟩, -⟩
      have hmem := List.mem_of_getElem? (hconverted.texts i payload hi)
      exact absurd ((parse?_eq_ok_iff.1 hout).1.fits _ hmem _ rfl) (Nat.not_le.2 hlt)
    · by_contra hn
      have hsame : c' = c := (converted_iff.1 hconverted).trans (mapUtf8_eq_self_of_not_holdsName hn)
      rw [(parse?_eq_ok_iff.1 hout).2, (parse?_eq_ok_iff.1 hp).2, hsame] at hne
      exact hne rfl

/-- **What is reported as converted is changed, and what is changed is reported.** A text is converted
exactly if it differs from itself with its pieces replaced one by one, and a class file exactly if it
differs from the one with its texts replaced. The rules may move names to each other and make them
longer or shorter. -/
theorem converts_iff_changes (t : Table) :
    (∀ s out, t.convert? s = some out ↔ out = (pieces s).flatMap (Piece.converted t) ∧ out ≠ s) ∧
    ∀ data out, t.convertClass? data = .ok (some out) ↔
      ∃ c c', parse? data = .ok c ∧ parse? out = .ok c' ∧ t.Converted c c' ∧ out ≠ data := by
  refine ⟨fun s out => ?_, fun data out => convertClass?_eq_some_iff_ne⟩
  rw [← convert_eq_flatMap]
  exact convert?_eq_some_iff_ne

end Table

end PackageMigration
