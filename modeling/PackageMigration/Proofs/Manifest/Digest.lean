import PackageMigration.Proofs.Manifest.Section
/-
  The manifest of an archive that is signed no more.

  * `FreeOfDigests`: no digest of the archive or of an entry is left.

  Main statements: `freeOfDigests_repair`, `FreeOfDigests.reread` (writing and reading brings none
  back).
-/
namespace PackageMigration.Manifest

/-- No digest is in the main section or in a section about an entry. -/
structure FreeOfDigests (m : Manifest) : Prop where
  main : ∀ a ∈ m.main, ¬ a.isDigest
  entries : ∀ s ∈ m.entries, s.name? ≠ none → ∀ a ∈ s, ¬ a.isDigest

theorem Section.not_isDigest_of_mem_repair {r : Repair} (hr : r.signed = true) {s : Section}
    (hs : (s.repair r).name? ≠ none) {a : Attribute} (ha : a ∈ s.repair r) : ¬ a.isDigest := by
  intro hd
  cases hname : s.name? with
  | none =>
    rw [show s.repair r = s by rw [repair, hname]] at hs
    exact hs hname
  | some name =>
    obtain ⟨-, hunsigned, -⟩ := mem_repair_of_isDigest hname ha hd
    rw [hr] at hunsigned
    cases hunsigned

/-- **No digest is left by the repair of a manifest whose archive was signed.** -/
theorem freeOfDigests_repair {r : Repair} (hr : r.signed = true) (version : Bytes) (m : Manifest) :
    (m.repair r version).FreeOfDigests where
  main a ha := by
    rw [repair, if_pos hr] at ha
    exact Section.not_isDigest_of_mem_withoutDigests ha
  entries s' hs' hname a ha := by
    obtain ⟨s, -, rfl⟩ := List.mem_map.1 (List.mem_of_mem_filter hs')
    exact Section.not_isDigest_of_mem_repair hr hname ha

theorem Section.name?_ne_none_iff {s : Section} : s.name? ≠ none ↔ ∃ a ∈ s, a.isName := by
  unfold name? value?
  rw [ne_eq, Option.map_eq_none_iff, List.find?_eq_none]
  simp [Attribute.isName]

theorem isDigest_readBack (a : Attribute) : a.readBack.isDigest = a.isDigest := by
  rw [Attribute.isDigest, Attribute.isDigest, Attribute.name_readBack]

theorem FreeOfDigests.reread {m m' : Manifest} (h : m.FreeOfDigests) (hm : m.IsProper)
    (hparse : parse? m.bytes = .ok m') : m'.FreeOfDigests := by
  obtain ⟨-, rfl⟩ := (parse?_bytes_eq_ok_iff hm).1 hparse
  refine ⟨fun a' ha' => ?_, fun s' hs' hname a' ha' => ?_⟩
  · obtain ⟨a, ha, rfl⟩ := List.mem_map.1 ha'
    rw [isDigest_readBack]
    exact h.main a ha
  · obtain ⟨s, hs, rfl⟩ := List.mem_map.1 hs'
    obtain ⟨a, ha, rfl⟩ := List.mem_map.1 ha'
    obtain ⟨b', hb', hisName⟩ := Section.name?_ne_none_iff.1 hname
    obtain ⟨b, hb, rfl⟩ := List.mem_map.1 hb'
    rw [Attribute.isName_eq_of_name_eq b.name_readBack] at hisName
    rw [isDigest_readBack]
    exact h.entries s (List.mem_of_mem_filter hs) (Section.name?_ne_none_iff.2 ⟨b, hb, hisName⟩) a ha

end PackageMigration.Manifest
