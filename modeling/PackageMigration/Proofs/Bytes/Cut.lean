import PackageMigration.Proofs.Bytes.Split
/-
  Where a text is cut in two.

  Main statements: `cutFirst?_eq_some_iff`, `cutLast?_eq_some_iff`, `lastPart_eq_iff`,
  `suffix_lastPart_iff`, `afterIgnoringCase?_eq_some_iff`.
-/
namespace PackageMigration.Bytes

theorem cutFirst?_eq_some_iff {sep : UInt8} {s head tail : Bytes} :
    cutFirst? sep s = some (head, tail) ↔ s = head ++ sep :: tail ∧ sep ∉ head := by
  have hne : ∀ {b : UInt8}, (b != sep) = true ↔ b ≠ sep := bne_iff_ne
  constructor
  · intro h
    unfold cutFirst? at h
    split at h
    · cases h
    next b rest hd =>
      obtain ⟨rfl, rfl⟩ := Prod.mk.inj (Option.some.inj h)
      have hb : b = sep := by
        have := List.head_dropWhile_not (· != sep) (l := s) (by simp [hd])
        simpa [hd] using this
      refine ⟨?_, fun hm => ?_⟩
      · rw [hb] at hd
        rw [← hd, List.takeWhile_append_dropWhile]
      · have := List.all_eq_true.1 (List.all_takeWhile (p := (· != sep)) (l := s)) sep hm
        exact absurd rfl (hne.1 this)
  · rintro ⟨rfl, hh⟩
    have hp : ∀ b ∈ head, (b != sep) = true := fun b hb => hne.2 (ne_of_mem_of_not_mem hb hh)
    have hd : (head ++ sep :: tail).dropWhile (· != sep) = sep :: tail := by
      rw [List.dropWhile_append_of_pos hp, List.dropWhile_cons_of_neg (by simp)]
    have ht : (head ++ sep :: tail).takeWhile (· != sep) = head := by
      rw [List.takeWhile_append_of_pos hp, List.takeWhile_cons_of_neg (by simp), List.append_nil]
    rw [cutFirst?, hd, ht]

theorem cutFirst?_eq_none_iff {sep : UInt8} {s : Bytes} : cutFirst? sep s = none ↔ sep ∉ s := by
  refine ⟨fun h hm => ?_, fun h => ?_⟩
  · obtain ⟨d, tail, rfl, hd⟩ := List.eq_append_cons_of_mem hm
    rw [cutFirst?_eq_some_iff.2 ⟨rfl, hd⟩] at h
    cases h
  · rw [Option.eq_none_iff_forall_ne_some]
    rintro ⟨a, b⟩ hs
    exact h (by simp [(cutFirst?_eq_some_iff.1 hs).1])

theorem cutLast?_eq_some_iff {sep : UInt8} {s head tail : Bytes} :
    cutLast? sep s = some (head, tail) ↔ s = head ++ sep :: tail ∧ sep ∉ tail := by
  rw [cutLast?, Option.map_eq_some_iff]
  constructor
  · rintro ⟨⟨a, b⟩, h, he⟩
    obtain ⟨hs, ha⟩ := cutFirst?_eq_some_iff.1 h
    obtain ⟨rfl, rfl⟩ := Prod.mk.inj he
    refine ⟨?_, fun hm => ha (List.mem_reverse.1 hm)⟩
    rw [← List.reverse_reverse s, hs]
    simp
  · rintro ⟨rfl, ht⟩
    refine ⟨(tail.reverse, head.reverse), cutFirst?_eq_some_iff.2 ⟨by simp, fun hm => ?_⟩, by simp⟩
    exact ht (List.mem_reverse.1 hm)

theorem lastPart_of_notMem {sep : UInt8} {s : Bytes} (h : sep ∉ s) : lastPart sep s = s := by
  have hp : ∀ b ∈ s.reverse, (b != sep) = true := fun b hb =>
    bne_iff_ne.2 (ne_of_mem_of_not_mem (List.mem_reverse.1 hb) h)
  rw [lastPart, ← List.append_nil s.reverse, List.takeWhile_append_of_pos hp]
  simp

theorem lastPart_append_cons {sep : UInt8} {s : Bytes} (h : sep ∉ s) (d : Bytes) :
    lastPart sep (d ++ sep :: s) = s := by
  have hp : ∀ b ∈ s.reverse, (b != sep) = true := fun b hb =>
    bne_iff_ne.2 (ne_of_mem_of_not_mem (List.mem_reverse.1 hb) h)
  rw [lastPart, List.reverse_append, List.reverse_cons, List.append_assoc,
    List.takeWhile_append_of_pos hp, List.singleton_append, List.takeWhile_cons_of_neg (by simp)]
  simp

/-- The last part is all behind the last separator, or all. -/
theorem lastPart_eq_iff {sep : UInt8} {s last : Bytes} :
    lastPart sep s = last ↔ sep ∉ last ∧ (s = last ∨ ∃ d, s = d ++ sep :: last) := by
  constructor
  · rintro rfl
    cases h : cutLast? sep s with
    | none =>
      rw [cutLast?, Option.map_eq_none_iff, cutFirst?_eq_none_iff, List.mem_reverse] at h
      rw [lastPart_of_notMem h]
      exact ⟨h, .inl rfl⟩
    | some x =>
      obtain ⟨d, last⟩ := x
      obtain ⟨rfl, hl⟩ := cutLast?_eq_some_iff.1 h
      rw [lastPart_append_cons hl]
      exact ⟨hl, .inr ⟨d, rfl⟩⟩
  · rintro ⟨hl, rfl | ⟨d, rfl⟩⟩
    · exact lastPart_of_notMem hl
    · exact lastPart_append_cons hl d

/-- The last part is the last one that a text is split into. -/
theorem getLast?_splitOn (sep : UInt8) (s : Bytes) : (splitOn sep s).getLast? = some (lastPart sep s) := by
  generalize hl : lastPart sep s = last
  obtain ⟨hlast, rfl | ⟨d, rfl⟩⟩ := lastPart_eq_iff.1 hl
  · rw [splitOn_of_notMem hlast, List.getLast?_singleton]
  · rw [splitOn_append, splitOn_of_notMem hlast, List.getLast?_concat]

theorem lastPart_lastPart (sep : UInt8) (s : Bytes) : lastPart sep (lastPart sep s) = lastPart sep s :=
  lastPart_of_notMem (lastPart_eq_iff.1 rfl).1

/-- A text without the separator is at the end of another one if it is at the end of its last part. -/
theorem suffix_lastPart_iff {sep : UInt8} {s w : Bytes} (hw : sep ∉ w) :
    w <:+ lastPart sep s ↔ w <:+ s := by
  generalize hl : lastPart sep s = last
  obtain ⟨-, rfl | ⟨d, rfl⟩⟩ := lastPart_eq_iff.1 hl
  · rfl
  · have hbehind : sep :: last <:+ d ++ sep :: last := List.suffix_append _ _
    refine ⟨fun hs => (hs.trans (List.suffix_cons sep last)).trans hbehind, fun hs => ?_⟩
    rcases List.suffix_or_suffix_of_suffix hs hbehind with hs | hs
    · rcases List.suffix_cons_iff.1 hs with rfl | hs
      · exact absurd List.mem_cons_self hw
      · exact hs
    · exact absurd (hs.subset List.mem_cons_self) hw

theorem lower_eq_slash_iff {b : UInt8} : Byte.lower b = Byte.slash ↔ b = Byte.slash := by
  unfold Byte.lower
  split
  next h =>
    simp only [Byte.isUpper, Bool.and_eq_true, decide_eq_true_eq, UInt8.le_iff_toNat_le] at h
    rw [← UInt8.toNat_inj, ← UInt8.toNat_inj, UInt8.toNat_add, show Byte.slash.toNat = 0x2F from rfl]
    simp at h ⊢
    omega
  · rfl

/-- Small letters are separated where capitals are. -/
theorem lower_lastPart (s : Bytes) : lower (lastPart Byte.slash s) = lastPart Byte.slash (lower s) := by
  have hne : ((· != Byte.slash) ∘ Byte.lower) = (· != Byte.slash) := by
    funext b
    rw [Function.comp_apply, Bool.eq_iff_iff, bne_iff_ne, bne_iff_ne, ne_eq, lower_eq_slash_iff]
  rw [lastPart, lastPart, lower, lower, ← List.map_reverse, List.takeWhile_map, hne, List.map_reverse]

theorem afterIgnoringCase?_eq_some_iff {start s rest : Bytes} :
    afterIgnoringCase? start s = some rest ↔ ∃ p, s = p ++ rest ∧ lower p = lower start := by
  unfold afterIgnoringCase? sameIgnoringCase
  constructor
  · intro h
    split at h
    next hs =>
      cases h
      exact ⟨_, (List.take_append_drop _ _).symm, eq_of_beq hs⟩
    · cases h
  · rintro ⟨p, rfl, hp⟩
    have hl : p.length = start.length := by
      have := congrArg List.length hp
      simpa [lower] using this
    rw [← hl, List.take_left, List.drop_left, hp]
    simp

end PackageMigration.Bytes
