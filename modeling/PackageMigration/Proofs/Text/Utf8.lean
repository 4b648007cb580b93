import PackageMigration.Text.Utf8
/-
  Which bytes are text.

  * `IsAscii`: bytes that are characters by themselves.

  Main statements: `utf8EncodeChar_cases` (the bytes of a character), `isText_append_cons` (a text
  cut at a byte that is a character by itself), `isText_append_ascii_append` (ASCII may be replaced
  by ASCII).
-/
namespace PackageMigration.Bytes

/-- The bytes of a character: one below 128, or one from 192 on with up to three behind it that are
between. -/
theorem utf8EncodeChar_cases (c : Char) :
    (∃ b, String.utf8EncodeChar c = [b] ∧ b < 0x80) ∨
      ∃ b t, String.utf8EncodeChar c = b :: t ∧ 0xC0 ≤ b ∧ b < 0xF8 ∧ t.length ≤ 3 ∧
        ∀ x ∈ t, 0x80 ≤ x ∧ x ≤ 0xBF := by
  have more : ∀ {n : Nat} {t : Bytes}, (∀ x ∈ t, 0x80 ≤ x ∧ x ≤ 0xBF) →
      ∀ x ∈ UInt8.ofNat (n % 0x40 + 0x80) :: t, 0x80 ≤ x ∧ x ≤ 0xBF := by
    intro n t ht
    refine List.forall_mem_cons.2 ⟨?_, ht⟩
    simp only [UInt8.le_iff_toNat_le, UInt8.toNat_ofNat', UInt8.reduceToNat]
    omega
  have long : ∀ {n base : Nat} {t : Bytes}, 0xC0 ≤ base → n + base < 0xF8 → t.length ≤ 3 →
      (∀ x ∈ t, 0x80 ≤ x ∧ x ≤ 0xBF) → ∃ b t', UInt8.ofNat (n + base) :: t = b :: t' ∧
        0xC0 ≤ b ∧ b < 0xF8 ∧ t'.length ≤ 3 ∧ ∀ x ∈ t', 0x80 ≤ x ∧ x ≤ 0xBF := by
    intro n base t hbase hn hlength ht
    refine ⟨_, t, rfl, ?_, ?_, hlength, ht⟩
    · simp only [UInt8.le_iff_toNat_le, UInt8.toNat_ofNat', UInt8.reduceToNat]
      omega
    · simp only [UInt8.lt_iff_toNat_lt, UInt8.toNat_ofNat', UInt8.reduceToNat]
      omega
  unfold String.utf8EncodeChar
  dsimp only
  split
  next h =>
    refine .inl ⟨_, rfl, ?_⟩
    simp only [UInt8.lt_iff_toNat_lt, UInt8.toNat_ofNat', UInt8.reduceToNat]
    omega
  have one := @more (c.val.toNat) [] (List.forall_mem_nil _)
  split
  next => exact .inr (long (by decide) (by omega) (by simp) one)
  split
  next => exact .inr (long (by decide) (by omega) (by simp) (more one))
  next => exact .inr (long (by decide) (by omega) (by simp) (more (more one)))

/-- Text is what characters encode. -/
theorem isText_iff {s : Bytes} : IsText s ↔ ∃ cs : List Char, s = cs.flatMap String.utf8EncodeChar := by
  constructor
  · rintro ⟨cs, h⟩
    refine ⟨cs, ?_⟩
    have := congrArg (fun b : ByteArray => b.data.toList) h
    simpa [List.utf8Encode] using this
  · rintro ⟨cs, rfl⟩
    exact ⟨cs, rfl⟩

theorem length_utf8EncodeChar_pos (c : Char) : 0 < (String.utf8EncodeChar c).length :=
  String.length_utf8EncodeChar c ▸ c.utf8Size_pos

theorem length_utf8EncodeChar_le (c : Char) : (String.utf8EncodeChar c).length ≤ 4 :=
  String.length_utf8EncodeChar c ▸ c.utf8Size_le_four

theorem isText_utf8EncodeChar (c : Char) : IsText (String.utf8EncodeChar c) :=
  isText_iff.2 ⟨[c], (List.flatMap_singleton _ _).symm⟩

/-- What stands behind a character of a text is text. -/
theorem isText_of_utf8EncodeChar_append {c : Char} {s : Bytes}
    (h : IsText (String.utf8EncodeChar c ++ s)) : IsText s := by
  refine ByteArray.isValidUTF8_utf8Encode_singleton_append_iff (c := c).1 ?_
  have hbytes : [c].utf8Encode ++ s.toByteArray = (String.utf8EncodeChar c ++ s).toByteArray := by
    rw [List.toByteArray_append, List.utf8Encode_singleton]
  exact hbytes ▸ h

theorem isText_nil : IsText [] := isText_iff.2 ⟨[], rfl⟩

theorem IsText.append {s s' : Bytes} (h : IsText s) (h' : IsText s') : IsText (s ++ s') := by
  obtain ⟨cs, rfl⟩ := isText_iff.1 h
  obtain ⟨cs', rfl⟩ := isText_iff.1 h'
  exact isText_iff.2 ⟨cs ++ cs', by rw [List.flatMap_append]⟩

theorem isText_flatten {ss : List Bytes} (h : ∀ s ∈ ss, IsText s) : IsText ss.flatten := by
  induction ss with
  | nil => exact isText_nil
  | cons s ss ih =>
    obtain ⟨hs, hss⟩ := List.forall_mem_cons.1 h
    exact hs.append (ih hss)

/-- The byte of a character that is one by itself. -/
theorem utf8EncodeChar_ofNat {b : UInt8} (hb : b < 0x80) :
    String.utf8EncodeChar (Char.ofNat b.toNat) = [b] := by
  have hn : b.toNat < 0x80 := UInt8.lt_iff_toNat_lt.1 hb
  have hv : (Char.ofNat b.toNat).val.toNat = b.toNat := by
    have hvalid : b.toNat.isValidChar := .inl (by omega)
    rw [show Char.ofNat b.toNat = Char.ofNatAux b.toNat hvalid from dif_pos hvalid]
    rfl
  rw [String.utf8EncodeChar, hv, if_pos (by omega), UInt8.ofNat_toNat]

theorem isText_singleton {b : UInt8} (hb : b < 0x80) : IsText [b] :=
  utf8EncodeChar_ofNat hb ▸ isText_utf8EncodeChar _

theorem eq_nil_of_utf8EncodeChar_eq {c : Char} {s u : Bytes} {b : UInt8} (hb : b < 0x80)
    (h : String.utf8EncodeChar c = s ++ b :: u) : s = [] ∧ u = [] := by
  rcases utf8EncodeChar_cases c with ⟨b', hc, -⟩ | ⟨b', t, hc, hb', -, -, ht⟩
  · rw [hc] at h
    cases s with
    | nil => exact ⟨rfl, (List.cons.inj h).2.symm⟩
    | cons a s =>
      have := (List.cons.inj h).2
      simp at this
  · have hmem : b ∈ b' :: t := by rw [← hc, h]; simp
    rcases List.mem_cons.1 hmem with rfl | hmem
    · exact absurd hb (UInt8.not_lt.2 (UInt8.le_trans (by decide) hb'))
    · exact absurd hb (UInt8.not_lt.2 (ht b hmem).1)

/-- **A text may be cut at a byte that is a character by itself.** -/
theorem isText_append_cons {s s' : Bytes} {b : UInt8} (hb : b < 0x80) :
    IsText (s ++ b :: s') ↔ IsText s ∧ IsText s' := by
  refine ⟨fun h => ?_, fun ⟨h, h'⟩ => h.append ((isText_singleton hb).append h')⟩
  obtain ⟨cs, hcs⟩ := isText_iff.1 h
  clear h
  induction cs generalizing s with
  | nil => simp at hcs
  | cons c cs ih =>
    rw [List.flatMap_cons] at hcs
    have hrest : IsText (cs.flatMap String.utf8EncodeChar) := isText_iff.2 ⟨cs, rfl⟩
    have hc := isText_utf8EncodeChar c
    rcases List.append_eq_append_iff.1 hcs with ⟨u, hu, hs'⟩ | ⟨u, rfl, hu⟩
    · cases u with
      | nil =>
        rw [List.append_nil] at hu
        exact ⟨hu ▸ hc, (ih (s := []) hs').2⟩
      | cons b' u =>
        obtain ⟨rfl, rfl⟩ := List.cons.inj hs'
        obtain ⟨rfl, rfl⟩ := eq_nil_of_utf8EncodeChar_eq hb hu
        exact ⟨isText_nil, hrest⟩
    · obtain ⟨hs, hs'⟩ := ih hu.symm
      exact ⟨hc.append hs, hs'⟩

theorem isText_cons_iff {s : Bytes} {b : UInt8} (hb : b < 0x80) : IsText (b :: s) ↔ IsText s :=
  (isText_append_cons hb).trans (and_iff_right isText_nil)

/-- Bytes that are characters by themselves. -/
def IsAscii (s : Bytes) : Prop := ∀ b ∈ s, b < 0x80

theorem isAscii_of_all {s : Bytes} (h : s.all fun b => decide (b < 0x80)) : IsAscii s :=
  fun b hb => of_decide_eq_true (List.all_eq_true.1 h b hb)

theorem IsAscii.isText {s : Bytes} (h : IsAscii s) : IsText s := by
  induction s with
  | nil => exact isText_nil
  | cons b s ih =>
    obtain ⟨hb, hs⟩ := List.forall_mem_cons.1 h
    exact (isText_singleton hb).append (ih hs)

/-- What stands behind ASCII in a text is text. -/
theorem isText_ascii_append_iff {a s : Bytes} (ha : IsAscii a) : IsText (a ++ s) ↔ IsText s := by
  refine ⟨fun h => ?_, ha.isText.append⟩
  induction a with
  | nil => exact h
  | cons b a ih =>
    obtain ⟨hb, ha⟩ := List.forall_mem_cons.1 ha
    exact ih ha ((isText_cons_iff hb).1 h)

/-- ASCII inside a text keeps the texts on its sides apart. -/
theorem isText_append_ascii_append {s a s' : Bytes} (ha : IsAscii a) (hne : a ≠ []) :
    IsText (s ++ a ++ s') ↔ IsText s ∧ IsText s' := by
  obtain ⟨b, a, rfl⟩ := List.exists_cons_of_ne_nil hne
  obtain ⟨hb, ha⟩ := List.forall_mem_cons.1 ha
  rw [List.append_assoc, List.cons_append, isText_append_cons hb, isText_ascii_append_iff ha]

/-- Parts of a text between bytes that are characters by themselves are text. -/
theorem isText_of_mem_splitOn {s p : Bytes} {sep : UInt8} (hsep : sep < 0x80) (h : IsText s)
    (hp : p ∈ splitOn sep s) : IsText p := by
  have hparts : ∀ ps : List Bytes, IsText ([sep].intercalate ps) → ∀ p ∈ ps, IsText p := by
    intro ps
    induction ps with
    | nil => exact fun _ => nofun
    | cons q qs ih =>
      intro h
      cases qs with
      | nil => exact List.forall_mem_singleton.2 (by simpa using h)
      | cons q' qs =>
        rw [List.intercalate_cons_cons, List.append_assoc, List.singleton_append,
          isText_append_cons hsep] at h
        exact List.forall_mem_cons.2 ⟨h.1, ih h.2⟩
  exact hparts _ ((intercalate_splitOn sep s).symm ▸ h) p hp

/-- In a text some bytes never occur. -/
theorem IsText.lt {s : Bytes} (h : IsText s) : ∀ b ∈ s, b < 0xF8 := by
  obtain ⟨cs, rfl⟩ := isText_iff.1 h
  intro b hb
  obtain ⟨c, -, hb⟩ := List.mem_flatMap.1 hb
  rcases utf8EncodeChar_cases c with ⟨b', hc, hlt⟩ | ⟨b', t, hc, -, hlt, -, ht⟩
  · rw [hc, List.mem_singleton] at hb
    exact hb ▸ UInt8.lt_trans hlt (by decide)
  · rw [hc] at hb
    rcases List.mem_cons.1 hb with rfl | hb
    · exact hlt
    · exact UInt8.lt_of_le_of_lt (ht b hb).2 (by decide)

end PackageMigration.Bytes
