import PackageMigration.Proofs.Container.Places
/-
  Contents that stand in a ZIP container as they are.

  Main statement: `Zip.length_lt_of_stored` (a stored content is shorter than its container).
-/
namespace PackageMigration.Container.Zip

theorem suffix_of_mem_locals {p : Place} {data : Bytes} (h : p ∈ (landmarks data).locals) :
    p.bytes <:+ data := by
  have hp : p ∈ placesFrom 0 [] data := (List.mem_filter.1 (List.mem_reverse.1 h)).1
  obtain ⟨before, rfl, -⟩ := (mem_placesFrom_iff.1 hp).resolve_left List.not_mem_nil
  exact List.suffix_append before p.bytes

/-- What stands behind a local record is shorter than the container, by the record at least. -/
theorem length_lt_of_behindLocal? {data s : Bytes} {offset : Nat}
    (h : behindLocal? (landmarks data) offset = some s) : s.length < data.length := by
  unfold behindLocal? at h
  split at h
  next => cases h
  next p hp =>
    have hsuffix := suffix_of_mem_locals (List.mem_of_find?_eq_some hp)
    dsimp only at h
    split at h
    next hlength =>
      obtain rfl := Option.some.inj h
      have hrecord : localSize ≤ p.bytes.length := hasLength_iff.1 hlength
      have hle := hsuffix.length_le
      rw [List.length_drop]
      have hpos : 0 < localSize := by decide
      omega
    next => cases h

/-- A description gives an entry if its content can be had. -/
theorem item_eq_entry {marks : Landmarks} {d : Description} {e : Entry} (h : item marks d = .entry e) :
    ∃ s, behindLocal? marks d.packed.offset = some s ∧
      decompress? e.method (s.take d.packed.compressedSize) = some e.data := by
  unfold item at h
  dsimp only at h
  split at h
  next method s _ hs =>
    split at h
    · cases h
    · split at h
      · cases h
      next content hcontent =>
        split at h
        · cases h
          exact ⟨s, hs, hcontent⟩
        · cases h
  next => cases h

/-- **A stored content is shorter than its container.** -/
theorem length_lt_of_stored {data : Bytes} {items : List Item} {e : Entry}
    (hread : read? data = some items) (he : .entry e ∈ items) (hstored : e.method = .stored) :
    e.data.length < data.length := by
  obtain ⟨found, -, rfl⟩ := Option.map_eq_some_iff.1 hread
  obtain ⟨d, -, hd⟩ := List.mem_map.1 he
  obtain ⟨s, hs, hcontent⟩ := item_eq_entry hd
  rw [hstored] at hcontent
  rw [← Option.some.inj hcontent]
  exact (List.length_take_le' _ _).trans_lt (length_lt_of_behindLocal? hs)

end PackageMigration.Container.Zip
