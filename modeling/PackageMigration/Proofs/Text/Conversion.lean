import PackageMigration.Proofs.Container.Name
import PackageMigration.Proofs.Manifest.Repair
import PackageMigration.Proofs.Mapping.Occurrence
import PackageMigration.Proofs.Mapping.Order
/-
  Replacing names in text: no character is cut, so nothing that mentions a mapped name is left as it
  is for want of a text to put in its place.

  Main statements: `isText_iff_of_replaces` (where a text is cut), `isSome_convert?_iff`,
  `renameEntry?_of_isText`, `convertValues?_of_isProper`, `Table.convertText?_complete`.
-/
namespace PackageMigration

open Bytes (IsAscii IsText)

variable {t : Table}

/-! ## Spans -/

/-- What is replaced is ASCII, and so is what takes its place. -/
theorem isAscii_of_replaces {before old new after : Bytes} (h : Replaces t before old new after) :
    IsAscii old ∧ old ≠ [] ∧ IsAscii new := by
  obtain ⟨ps, c, qs, s, hpieces, hspan, rfl, rfl, rfl, rfl⟩ := replaces_iff.1 h
  have hc : c.IsProper := (proper_pieces _).isProper_of_mem (by rw [hpieces]; simp)
  refine ⟨fun b hb => hc.isAscii b ?_, ?_, fun b hb => ?_⟩
  · rw [Chain.bytes_eq_of_span? hspan]
    simp [hb]
  · obtain ⟨d, m, hd, -, rfl⟩ := Chain.span?_eq_some_iff_exists.1 hspan
    exact List.append_ne_nil_of_left_ne_nil (Chain.isSegment_root hc hd).1 _
  · have hconvert := Chain.convert?_eq_map_span? t c
    rw [hspan, Chain.convert?_eq_map_moved?, Option.map_some, Option.map_eq_some_iff] at hconvert
    obtain ⟨c', hmoved, hbytes⟩ := hconvert
    refine (hc.moved? hmoved).isAscii b ?_
    rw [hbytes]
    simp [hb]

/-- **A text is cut between characters** where a span of it is replaced. -/
theorem isText_iff_of_replaces {before old new after : Bytes} (h : Replaces t before old new after) :
    IsText (before ++ old ++ after) ↔ IsText before ∧ IsText old ∧ IsText new ∧ IsText after := by
  obtain ⟨hold, hne, hnew⟩ := isAscii_of_replaces h
  rw [Bytes.isText_append_ascii_append hold hne, and_iff_right hold.isText, and_iff_right hnew.isText]

/-- A match is a span that is replaced. -/
theorem isSome_convert?_iff {s : Bytes} : (t.convert? s).isSome ↔
    ∃ before old new after, s = before ++ old ++ after ∧ Replaces t before old new after := by
  rw [Option.isSome_iff_ne_none, ne_eq, Table.convert?_eq_none_iff]
  push Not
  constructor
  · rintro ⟨c, hc, hmoved⟩
    obtain ⟨c', hc'⟩ := Option.ne_none_iff_exists'.1 hmoved
    have hconvert := Chain.convert?_eq_map_span? t c
    rw [Chain.convert?_eq_map_moved?, hc', Option.map_some, eq_comm, Option.map_eq_some_iff] at hconvert
    obtain ⟨e, hspan, -⟩ := hconvert
    obtain ⟨ps, qs, hpieces⟩ := List.append_of_mem hc
    have hs : s = ps.flatMap Piece.bytes ++ e.codes ++ e.old ++ (e.behind ++ qs.flatMap Piece.bytes) := by
      rw [← flatMap_bytes_pieces s, hpieces]
      simp [Piece.bytes, Chain.bytes_eq_of_span? hspan]
    exact ⟨_, _, _, _, hs, replaces_iff.2 ⟨ps, c, qs, e, hs ▸ hpieces, hspan, rfl, rfl, rfl, rfl⟩⟩
  · rintro ⟨before, old, new, after, rfl, h⟩
    obtain ⟨ps, c, qs, e, hpieces, hspan, -⟩ := replaces_iff.1 h
    refine ⟨c, by rw [hpieces]; simp, fun hmoved => ?_⟩
    have hconvert := Chain.convert?_eq_map_span? t c
    rw [Chain.convert?_eq_map_moved?, hmoved, hspan] at hconvert
    cases hconvert

theorem isText_of_convert? {s out : Bytes} (hs : IsText s) (h : t.convert? s = some out) : IsText out := by
  have htext := Table.isText_convert (t := t) hs
  rwa [Table.convert_of_convert? h] at htext

/-! ## Names of entries -/

theorem isAscii_classRoot (name : Bytes) : IsAscii (EntryName.classRoot name) := by
  unfold EntryName.classRoot
  split
  next root hroot =>
    have hroots : ∀ root ∈ EntryName.classRoots, IsAscii root := fun root hroot =>
      Bytes.isAscii_of_all (by revert root; decide)
    exact hroots root (List.mem_of_find?_eq_some hroot)
  next =>
    cases hversion : EntryName.versionRoot? name with
    | none => exact nofun
    | some root =>
      obtain ⟨version, -, rfl, -, -, hdigits⟩ := EntryName.versionRoot?_eq_some_iff.1 hversion
      refine List.forall_mem_append.2 ⟨List.forall_mem_append.2 ⟨?_, fun b hb => ?_⟩, ?_⟩
      · exact Bytes.isAscii_of_all (by decide)
      · have hdigit := List.all_eq_true.1 hdigits b hb
        simp only [Byte.isDigit, Bool.and_eq_true, decide_eq_true_eq] at hdigit
        exact UInt8.lt_of_le_of_lt hdigit.2 (by decide)
      · exact Bytes.isAscii_of_all (by decide)

/-- Behind its class root the name of an entry is converted as any text is, and stays text. -/
theorem renameEntry?_of_isText {name : Bytes} (h : IsText name) :
    t.renameEntry? name = (t.convert? (name.drop (EntryName.classRoot name).length)).map
        (EntryName.classRoot name ++ ·) ∧
      ∀ new, t.renameEntry? name = some new → IsText new := by
  obtain ⟨rest, hrest⟩ := EntryName.exists_eq_classRoot_append name
  have hdrop : name.drop (EntryName.classRoot name).length = rest :=
    (congrArg (List.drop (EntryName.classRoot name).length) hrest).trans List.drop_left
  have htext : IsText rest := (Bytes.isText_ascii_append_iff (isAscii_classRoot name)).1 (hrest ▸ h)
  refine ⟨?_, fun new hnew => (Table.reworded_renameEntry? hnew).isText h⟩
  rw [Table.renameEntry?, hdrop, Table.convertText?_of_isText htext]

/-! ## Manifests -/

/-- The values of a manifest that can be read are converted as any text is. The names of entries stay:
they follow the entries. -/
theorem Manifest.convertValues?_of_isProper {m : Manifest} (h : m.IsProper) :
    (m.convertValues? t = none ↔
        ∀ s ∈ m.sections, ∀ a ∈ s, ¬ a.isName → t.convert? a.value = none) ∧
      ∀ m', m.convertValues? t = some m' →
        m' = m.mapAttributes fun a => if a.isName then a else { a with value := t.convert a.value } := by
  have hvalue : ∀ s ∈ m.sections, ∀ a ∈ s,
      a.convertValue? t = if a.isName then none else t.convert? a.value := by
    intro s hs a ha
    rw [Attribute.convertValue?, Table.convertText?_of_isText (h s hs a ha).isText_value]
  constructor
  · rw [convertValues?, ite_eq_right_iff]
    simp only [reduceCtorEq, imp_false, List.any_eq_true, not_exists, not_and, Bool.not_eq_true,
      Option.isSome_eq_false_iff, Option.isNone_iff_eq_none]
    refine forall₂_congr fun s hs => forall₂_congr fun a ha => ?_
    rw [hvalue s hs a ha, ite_eq_left_iff, Bool.not_eq_true]
  · intro m' hm'
    have hconverted := getD_convertValues? t m
    rw [hm', Option.getD_some] at hconverted
    rw [hconverted]
    have hmap : ∀ s ∈ m.sections, s.map (Attribute.converted t) =
        s.map fun a => if a.isName then a else { a with value := t.convert a.value } :=
      fun s hs => List.map_congr_left fun a ha => Attribute.converted_eq (h s hs a ha)
    obtain ⟨hmain, hentries⟩ := List.forall_mem_cons.1 hmap
    rw [mapAttributes, mapAttributes, hmain, List.map_congr_left hentries]

/-- **Replacing names keeps text in UTF-8**, and cuts it between characters only. So a text is replaced
whenever it mentions a mapped name, and nothing that mentions one is left as it is: no value of a
manifest, but for the names of entries, which follow the entries, and no name of an entry behind its
class root. -/
theorem Table.convertText?_complete (t : Table) :
    (∀ s, IsText s →
      t.convertText? s = t.convert? s ∧ (∀ out, t.convert? s = some out → IsText out) ∧
      ((t.convertText? s).isSome ↔
        ∃ before old new after, s = before ++ old ++ after ∧ Replaces t before old new after) ∧
      ∀ before old new after, s = before ++ old ++ after → Replaces t before old new after →
        IsText before ∧ IsText old ∧ IsText new ∧ IsText after) ∧
    (∀ data m, Manifest.parse? data = .ok m →
      (∀ s ∈ m.sections, ∀ a ∈ s, IsText a.value) ∧
      (m.convertValues? t = none ↔
        ∀ s ∈ m.sections, ∀ a ∈ s, ¬ a.isName → t.convert? a.value = none) ∧
      ∀ m', m.convertValues? t = some m' →
        m' = m.mapAttributes fun a => if a.isName then a else { a with value := t.convert a.value }) ∧
    (∀ name, IsText name →
      t.renameEntry? name = (t.convert? (name.drop (EntryName.classRoot name).length)).map
        (EntryName.classRoot name ++ ·) ∧
      ∀ new, t.renameEntry? name = some new → IsText new) ∧
    ∀ data items e, Container.zip.read? data = some items → .entry e ∈ items → IsText e.name := by
  refine ⟨fun s hs => ⟨convertText?_of_isText hs, fun out => isText_of_convert? hs, ?_, ?_⟩,
    fun data m hm => ?_, fun name => renameEntry?_of_isText,
    fun data items e => Container.Zip.isText_of_read?⟩
  · rw [convertText?_of_isText hs]
    exact isSome_convert?_iff
  · rintro before old new after rfl h
    exact (isText_iff_of_replaces h).1 hs
  · have hproper := Manifest.isProper_of_parse? hm
    exact ⟨fun s hs a ha => (hproper s hs a ha).isText_value, Manifest.convertValues?_of_isProper hproper⟩

example : Profile.tomcat.table.convertText? (bytes "é=javax.el.Ä") =
    some (bytes "é=jakarta.el.Ä") := by
  rw [Profile.table_eq_orderedTable]
  decide +kernel

end PackageMigration
