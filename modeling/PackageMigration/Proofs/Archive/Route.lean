import PackageMigration.Archive.Migrate
import PackageMigration.Container.Zip
import PackageMigration.Proofs.Entry.Kind
import PackageMigration.Proofs.Mapping.Order
/-
  The route of an entry stays when a built-in table migrates it.

  Main statements: `moved_getD_renamed` (its new name has `jakarta` for some `javax`),
  `looksLikeClass_convertPayload?` (its new content looks like a class file if the old one did),
  `route_stable`.
-/
namespace PackageMigration

open Profile (oldRoot newRoot)

/-- The name of an entry in the migrated archive has `jakarta` for some `javax`. -/
theorem Profile.moved_getD_renamed (p : Profile) (name payload : Bytes) :
    Moved oldRoot newRoot name ((p.table.route name payload).renamed.getD name) := by
  by_cases hown : EntryKind.of name payload = .manifest ∨ EntryKind.of name payload = .signature
  · rw [Table.renamed_route_of_own hown]
    exact .refl _ _ _
  · rw [Table.renamed_route_of_not_own hown]
    exact p.moved_getD_renameEntry? name

/-- A name that may move does so at once. -/
theorem Profile.renameEntry?_getD_renamed (p : Profile) {name payload : Bytes}
    (h : ¬ (EntryKind.of name payload = .manifest ∨ EntryKind.of name payload = .signature)) :
    p.table.renameEntry? ((p.table.route name payload).renamed.getD name) = none := by
  rw [Table.renamed_route_of_not_own h]
  exact p.renameEntry?_getD name

namespace Archive

variable {nested : Nested} {p : Profile} {label name payload : Bytes}

/-- A converted content looks like a class file if it did before. -/
theorem looksLikeClass_convertPayload? {kind : EntryKind} (hkind : kind ≠ .nestedArchive)
    {converted : Option Bytes}
    (h : convertPayload? nested p.table kind label payload = .ok converted) :
    looksLikeClass (converted.getD payload) = looksLikeClass payload := by
  have htext : looksLikeClass (p.table.convert payload) = looksLikeClass payload :=
    looksLikeClass_moved (.inl rfl) (.inr rfl) (p.moved_convert payload)
  cases kind with
  | nestedArchive => exact absurd rfl hkind
  | classBinary =>
    cases converted with
    | none => rfl
    | some out => exact looksLikeClass_convertClass? (mapError_eq_ok_iff.1 h)
  | sourceText => cases h; exact htext
  | serviceRegistration => cases h; exact htext
  | directory => cases h; rfl
  | manifest => cases h; rfl
  | signature => cases h; rfl
  | passthrough => cases h; rfl

/-- **The route of an entry stays when it is migrated.** By its new name and its new content it is of the
kind that it was, and its new name does not move again if it is one that may move. -/
theorem route_stable (hkind : EntryKind.of name payload ≠ .nestedArchive) {converted : Option Bytes}
    (h : convertPayload? nested p.table (EntryKind.of name payload) label payload = .ok converted) :
    let target := (p.table.route name payload).renamed.getD name
    EntryKind.of target (converted.getD payload) = EntryKind.of name payload ∧
      (EntryKind.of name payload ≠ .manifest → EntryKind.of name payload ≠ .signature →
        p.table.renameEntry? target = none) := by
  intro target
  refine ⟨?_, fun hm hs => p.renameEntry?_getD_renamed (not_or.2 ⟨hm, hs⟩)⟩
  exact EntryKind.of_moved (.inl rfl) (.inr rfl) (p.moved_getD_renamed name payload)
    (looksLikeClass_convertPayload? hkind h)

/-- A text that begins like a class file but for its version, with a mapped name right behind, among the
classes for one version of the platform. -/
theorem route_stable_versionedText :
    let t := Profile.tomcat.table
    let name := bytes "META-INF/versions/9/javax/el/a.txt"
    let start : Bytes := [0xCA, 0xFE, 0xBA, 0xBE, 0, 0, 0, 44]
    let payload := start ++ bytes "javax.el.A"
    let out := start ++ bytes "jakarta.el.A"
    let target := (t.route name payload).renamed.getD name
    EntryKind.of name payload = .sourceText ∧
      convertPayload? (migrateWithin? Container.zip t nestingLimit) t .sourceText (bytes "c.jar") payload =
        .ok (some out) ∧
      target = bytes "META-INF/versions/9/jakarta/el/a.txt" ∧
      EntryKind.of target out = .sourceText ∧ t.renameEntry? target = none := by
  intro t name start payload out target
  have hkind : EntryKind.of name payload = .sourceText := by decide +kernel
  have hconvert : t.convert? payload = some out := by
    show Profile.tomcat.table.convert? payload = some out
    rw [Profile.table_eq_orderedTable]
    decide +kernel
  have htarget : target = bytes "META-INF/versions/9/jakarta/el/a.txt" := by
    show (Profile.tomcat.table.route name payload).renamed.getD name = _
    rw [Profile.table_eq_orderedTable]
    decide +kernel
  have hpayload : convertPayload? (migrateWithin? Container.zip t nestingLimit) t
      (EntryKind.of name payload) (bytes "c.jar") payload = .ok (some out) := by
    rw [hkind]
    exact congrArg Except.ok hconvert
  obtain ⟨hof, hrename⟩ := route_stable (by rw [hkind]; decide) hpayload
  exact ⟨hkind, congrArg Except.ok hconvert, htarget, hof.trans hkind,
    hrename (by rw [hkind]; decide) (by rw [hkind]; decide)⟩

end Archive

end PackageMigration
