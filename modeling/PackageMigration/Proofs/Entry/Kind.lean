import PackageMigration.Entry.Kind
import PackageMigration.Proofs.ClassFile.Conversion
import PackageMigration.Proofs.Entry.Name
import PackageMigration.Proofs.Text.Utf8
/-
  The kind of an entry stays when packages move.

  Main statements: `looksLikeClass_of_isText`, `looksLikeClass_moved`, `looksLikeClass_convertClass?`
  (a converted text or class looks like a class if it did before), `EntryKind.of_moved`,
  `EntryKind.of_isSignature`, `Table.renamed_route_of_own`, `Table.renamed_route_of_not_own` (which
  entries have new names).
-/
namespace PackageMigration

open EntryName (IsRoot)

/-! ## How class files start -/

/-- The bytes of the number that every class file starts with. -/
def magicBytes : Bytes := [0xCA, 0xFE, 0xBA, 0xBE]

theorem looksLikeClass_iff {s : Bytes} :
    looksLikeClass s ↔ ∃ m m' h l rest, s = magicBytes ++ m :: m' :: h :: l :: rest ∧
      45 ≤ h.toNat * 256 + l.toNat := by
  have hnumber : ∀ h l : UInt8, Bytes.ofBigEndian [h, l] = h.toNat * 256 + l.toNat := by
    intro h l
    simp [Bytes.ofBigEndian, Bytes.ofLittleEndian]
    omega
  constructor
  · intro hs
    simp only [looksLikeClass, Bool.and_eq_true, beq_iff_eq, decide_eq_true_eq] at hs
    obtain ⟨⟨hlength, hm⟩, hv⟩ := hs
    obtain ⟨a, b, c, d, hfirst⟩ := List.length_eq_four.1
      (show ((s.take 8).take 4).length = 4 by rw [List.length_take, hlength]; rfl)
    obtain ⟨m, m', h, l, hsecond⟩ := List.length_eq_four.1
      (show ((s.take 8).drop 4).length = 4 by rw [List.length_drop, hlength])
    have hhead : s.take 8 = [a, b, c, d] ++ [m, m', h, l] := by
      rw [← hfirst, ← hsecond, List.take_append_drop]
    rw [hhead] at hm hv
    have hmagic : [a, b, c, d] = magicBytes := by
      rw [← Bytes.bigEndian_ofBigEndian [a, b, c, d]]
      exact (congrArg (Bytes.bigEndian 4) hm).trans (by decide)
    refine ⟨m, m', h, l, s.drop 8, ?_, ?_⟩
    · rw [← List.take_append_drop 8 s, hhead, hmagic]
      rfl
    · rw [← hnumber]; exact hv
  · rintro ⟨m, m', h, l, rest, rfl, hv⟩
    simp only [looksLikeClass, Bool.and_eq_true, beq_iff_eq, decide_eq_true_eq]
    refine ⟨⟨rfl, show Bytes.ofBigEndian magicBytes = classMagic by decide⟩, ?_⟩
    rw [← hnumber] at hv
    exact hv

/-- A text does not begin like a class. -/
theorem looksLikeClass_of_isText {s : Bytes} (h : Bytes.IsText s) : looksLikeClass s = false := by
  rw [Bool.eq_false_iff]
  intro hclass
  obtain ⟨_, _, _, _, _, rfl, -⟩ := looksLikeClass_iff.1 hclass
  exact absurd (h.lt 0xFE (List.mem_append_left _ (by decide))) (by decide)

theorem Moved.cons_cases {x y s s' : Bytes} {b : UInt8} (h : Moved x y (b :: s) s') :
    (∃ u, s' = b :: u ∧ Moved x y s u) ∨
      ∃ u u', b :: s = x ++ u ∧ s' = y ++ u' ∧ Moved x y u u' := by
  generalize hs : b :: s = r at h
  cases h with
  | nil => cases hs
  | keep c h => cases hs; exact .inl ⟨_, rfl, h⟩
  | swap h => exact .inr ⟨_, _, rfl, rfl, h⟩

theorem EntryName.IsRoot.exists_eq {y : Bytes} (hy : IsRoot y) :
    ∃ c more, y = 0x6A :: 0x61 :: c :: 0x61 :: more ∧ 0x60 ≤ c.toNat := by
  rcases hy with rfl | rfl
  · exact ⟨0x76, _, rfl, by decide⟩
  · exact ⟨0x6B, _, rfl, by decide⟩

theorem le_version {h : UInt8} (hh : 0 < h.toNat) (l : UInt8) : 45 ≤ h.toNat * 256 + l.toNat := by
  omega

theorem looksLikeClass_of_moved {x y s s' : Bytes} (hx : IsRoot x) (hy : IsRoot y)
    (h : Moved x y s s') (hs : looksLikeClass s) : looksLikeClass s' := by
  obtain ⟨m, m', v, l, rest, rfl, hv⟩ := looksLikeClass_iff.1 hs
  obtain ⟨w, rfl, hw⟩ := EntryName.append_left_of_moved hx h (p := magicBytes) (by decide)
  obtain ⟨c, more, rfl, hc⟩ := hy.exists_eq
  refine looksLikeClass_iff.2 ?_
  -- a word that begins in the version makes it a high one
  rcases hw.cons_cases with ⟨w₁, rfl, hw₁⟩ | ⟨_, _, -, rfl, -⟩
  · rcases hw₁.cons_cases with ⟨w₂, rfl, hw₂⟩ | ⟨_, _, -, rfl, -⟩
    · rcases hw₂.cons_cases with ⟨w₃, rfl, hw₃⟩ | ⟨_, _, -, rfl, -⟩
      · rcases hw₃.cons_cases with ⟨w₄, rfl, -⟩ | ⟨_, _, hl, rfl, -⟩
        · exact ⟨m, m', v, l, w₄, rfl, hv⟩
        · obtain ⟨c', more', rfl, -⟩ := hx.exists_eq
          obtain ⟨rfl, -⟩ := List.cons.inj hl
          exact ⟨m, m', v, 0x6A, _, rfl, hv⟩
      · exact ⟨m, m', 0x6A, 0x61, _, rfl, by decide⟩
    · exact ⟨m, 0x6A, 0x61, c, _, rfl, le_version (by decide) _⟩
  · exact ⟨0x6A, 0x61, c, 0x61, _, rfl, le_version (Nat.lt_of_lt_of_le (by decide) hc) _⟩

theorem looksLikeClass_moved {x y s s' : Bytes} (hx : IsRoot x) (hy : IsRoot y) (h : Moved x y s s') :
    looksLikeClass s' = looksLikeClass s :=
  EntryName.eq_of_moved looksLikeClass_of_moved hx hy h

/-- A converted class file starts as before. -/
theorem take_convertClass? {t : Table} {data out : Bytes}
    (h : t.convertClass? data = .ok (some out)) : out.take 8 = data.take 8 := by
  have hhead : ∀ {data : Bytes} {c : ClassFile}, ClassFile.parse? data = .ok c →
      data.take 8 = c.header := by
    intro data c hc
    obtain ⟨hw, rfl⟩ := ClassFile.parse?_eq_ok_iff.1 hc
    simp only [ClassFile.bytes, List.append_assoc]
    rw [← hw.header, List.take_left]
  cases hp : ClassFile.parse? data with
  | error => rw [Table.convertClass?_of_parse?_error hp] at h; cases h
  | ok c =>
    obtain ⟨-, -, c', hp', hc⟩ := (Table.convertClass?_eq_some_iff hp).1 h
    rw [hhead hp, hhead hp', hc.header]

theorem looksLikeClass_convertClass? {t : Table} {data out : Bytes}
    (h : t.convertClass? data = .ok (some out)) : looksLikeClass out = looksLikeClass data := by
  simp only [looksLikeClass, take_convertClass? h]

/-- **The kind of an entry stays when packages move.** -/
theorem EntryKind.of_moved {x y name name' payload payload' : Bytes} (hx : IsRoot x) (hy : IsRoot y)
    (h : Moved x y name name') (hp : looksLikeClass payload' = looksLikeClass payload) :
    EntryKind.of name' payload' = EntryKind.of name payload := by
  simp only [EntryKind.of, EntryName.isDirectory_moved hx hy h, EntryName.isClass_moved hx hy h,
    EntryName.isManifest_moved hx hy h, EntryName.isSignature_moved hx hy h,
    EntryName.isService_moved hx hy h, EntryName.isArchive_moved hx hy h,
    EntryName.isText_moved hx hy h, hp]

/-- What has the name of a signature is one, unless it is a class file. -/
theorem EntryKind.of_isSignature {name : Bytes} (h : EntryName.isSignature name) (payload : Bytes) :
    EntryKind.of name payload = .classBinary ∨ EntryKind.of name payload = .signature := by
  rw [EntryKind.of, if_neg (EntryName.not_isDirectory_of_isSignature h),
    if_neg (EntryName.not_isManifest_of_isSignature h), if_pos h]
  split
  · exact .inl rfl
  · exact .inr rfl

/-! ## New names -/

section
variable {t : Table} {name payload : Bytes}

/-- The archive's own files keep their names. -/
theorem Table.renamed_route_of_own
    (h : EntryKind.of name payload = .manifest ∨ EntryKind.of name payload = .signature) :
    (t.route name payload).renamed = none :=
  if_pos h

theorem Table.renamed_route_of_not_own
    (h : ¬ (EntryKind.of name payload = .manifest ∨ EntryKind.of name payload = .signature)) :
    (t.route name payload).renamed = t.renameEntry? name :=
  if_neg h

end

end PackageMigration
