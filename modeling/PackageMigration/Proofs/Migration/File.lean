import PackageMigration.Proofs.Archive.Idempotence
import PackageMigration.Proofs.Migration.Routing
/-
  A file is converted once, also if it gets another path.

  * `Manifest.IsLegible`: manifests that can be read after they were written.
  * `Container.Format.IsMarked`: formats whose containers can be told from their first bytes.

  Main statements: `ArtifactKind.of_moved` (the kind stays), `convert?_getD`, `file_getD`.
-/
namespace PackageMigration

open EntryName (IsRoot)
open Profile (oldRoot newRoot)

/-- The bytes are no manifest, or one whose names leave room for a colon on their lines. -/
def Manifest.IsLegible (data : Bytes) : Prop :=
  ∀ m, parse? data = .ok m → ∀ s ∈ m.sections, ∀ a ∈ s, a.name.length < width

/-! ## Kinds -/

namespace ArtifactKind

section
variable {x y path path' content content' : Bytes}

theorem of_eq_archive_iff : of path content = .archive ↔
    EntryName.isArchive ((Path.fileName? path).getD []) ∨ containerMagic <+: content := by
  unfold of
  rw [← List.isPrefixOf_iff_prefix, ← Bool.or_eq_true]
  dsimp only
  split
  next h => exact iff_of_true rfl h
  next h =>
    refine iff_of_false (fun hk => ?_) h
    repeat' split at hk
    all_goals cases hk

/-- A file that is no archive stays of its kind when packages move, or its content does not matter any
more because its new place is not one of service registrations. -/
theorem of_moved (hx : IsRoot x) (hy : IsRoot y)
    (hname : Moved x y ((Path.fileName? path).getD []) ((Path.fileName? path').getD []))
    (hservice : isServiceFile path' → isServiceFile path) (hkind : of path content ≠ .archive)
    (hmagic : containerMagic <+: content' → containerMagic <+: content)
    (hclass : looksLikeClass content' = looksLikeClass content) :
    of path' content' = of path content ∨ of path' content' = .passthrough := by
  rw [ne_eq, of_eq_archive_iff, not_or] at hkind
  have hstart : containerMagic.isPrefixOf content = false :=
    Bool.eq_false_iff.2 (mt List.isPrefixOf_iff_prefix.1 hkind.2)
  have hstart' : containerMagic.isPrefixOf content' = false :=
    Bool.eq_false_iff.2 (mt List.isPrefixOf_iff_prefix.1 fun h => hkind.2 (hmagic h))
  have hmanifest : Bytes.sameIgnoringCase ((Path.fileName? path').getD []) (bytes "MANIFEST.MF") =
      Bytes.sameIgnoringCase ((Path.fileName? path).getD []) (bytes "MANIFEST.MF") :=
    EntryName.eq_of_moved (f := (Bytes.sameIgnoringCase · (bytes "MANIFEST.MF")))
      (fun hx _ h => EntryName.sameIgnoringCase_of_moved hx h (by decide)) hx hy hname
  unfold of
  simp only [hstart, hstart', hclass, hmanifest, EntryName.isArchive_moved hx hy hname,
    EntryName.isClass_moved hx hy hname, EntryName.isText_moved hx hy hname]
  cases hs : isServiceFile path' with
  | true => simp [hservice hs]
  | false =>
    cases isServiceFile path with
    | false => exact .inl rfl
    | true => split_ifs <;> simp_all

end

end ArtifactKind

namespace Conversion

open Migration (Error)

section
variable {p : Profile} {kind : ArtifactKind} {path path' content : Bytes} {new : Option Bytes}

/-! ## Contents -/

/-- What nothing is found in stays as it is under any path. -/
theorem convert?_eq_none_of_path {t : Table} (h : convert? t kind path content = .ok none)
    (path' : Bytes) : convert? t kind path' content = .ok none := by
  cases kind with
  | classBinary => exact mapError_eq_ok_iff.2 (mapError_eq_ok_iff.1 h)
  | manifest =>
    unfold convert? convertManifest? at h ⊢
    cases hm : Manifest.parse? content with
    | error => simp [hm] at h
    | ok m => simpa [hm] using h
  | sourceText => exact h
  | archive => rfl
  | passthrough => rfl

theorem convertManifest?_eq_some_iff {t : Table} {out : Bytes} :
    convertManifest? t path content = .ok (some out) ↔
      ∃ m m', Manifest.parse? content = .ok m ∧ m.convertValues? t = some m' ∧ m'.bytes = out := by
  unfold convertManifest?
  cases Manifest.parse? content <;> simp

/-- **What was converted is not converted again.** -/
theorem convert?_getD (h : convert? p.table kind path content = .ok new)
    (hlegible : kind = .manifest → Manifest.IsLegible content) (path' : Bytes) :
    convert? p.table kind path' (new.getD content) = .ok none := by
  cases new with
  | none => exact convert?_eq_none_of_path h path'
  | some out =>
    rw [Option.getD_some]
    cases kind with
    | classBinary =>
      exact mapError_eq_ok_iff.2 (p.isSettled_table.convertClass?_convertClass? (mapError_eq_ok_iff.1 h))
    | manifest =>
      obtain ⟨m, m', hm, hm', rfl⟩ := convertManifest?_eq_some_iff.1 h
      obtain ⟨m'', hparse, hnone⟩ := Manifest.exists_parse?_of_convertValues? hm (hlegible rfl m hm) hm'
      simp [convert?, convertManifest?, hparse, hnone]
    | sourceText =>
      have hsettled := p.isSettled_table.convert?_convert content
      rw [Table.convert_of_convert? (Except.ok.inj h)] at hsettled
      exact congrArg Except.ok hsettled
    | archive => cases h
    | passthrough => cases h

/-- The first bytes of a converted content say of it what those of the old one said. -/
theorem head_of_convert? (h : convert? p.table (ArtifactKind.of path content) path content = .ok new)
    (hlegible : ArtifactKind.of path content = .manifest → Manifest.IsLegible content) :
    (ArtifactKind.containerMagic <+: new.getD content → ArtifactKind.containerMagic <+: content) ∧
      looksLikeClass (new.getD content) = looksLikeClass content := by
  cases new with
  | none => exact ⟨id, rfl⟩
  | some out =>
    rw [Option.getD_some]
    cases hkind : ArtifactKind.of path content with
    | classBinary =>
      rw [hkind] at h
      have hclass := mapError_eq_ok_iff.1 h
      refine ⟨fun hmagic => ?_, looksLikeClass_convertClass? hclass⟩
      have htake : ArtifactKind.containerMagic <+: out.take 8 :=
        List.prefix_take_iff.2 ⟨hmagic, by decide⟩
      rw [take_convertClass? hclass] at htake
      exact htake.trans (List.take_prefix _ _)
    | manifest =>
      have hclass : looksLikeClass content = false := by
        unfold ArtifactKind.of at hkind
        rw [Bool.eq_false_iff]
        intro hclass
        simp only [hclass, Bool.or_true, if_true] at hkind
        split at hkind <;> cases hkind
      rw [hkind] at h
      obtain ⟨m, m', hm, hm', rfl⟩ := convertManifest?_eq_some_iff.1 h
      obtain rfl : (m.convertValues? p.table).getD m = m' := by rw [hm', Option.getD_some]
      refine ⟨Manifest.prefix_of_prefix_convertValues? hm (hlegible hkind m hm) (by decide) (by decide), ?_⟩
      have hproper := Manifest.isProper_convertValues? (t := p.table) (Manifest.isProper_of_parse? hm)
      rw [hclass, looksLikeClass_of_isText hproper.isText_bytes]
    | sourceText =>
      rw [hkind] at h
      have hmoved := p.moved_convert content
      rw [Table.convert_of_convert? (Except.ok.inj h)] at hmoved
      refine ⟨fun hmagic => ?_, looksLikeClass_moved (.inl rfl) (.inr rfl) hmoved⟩
      rw [← List.isPrefixOf_iff_prefix] at hmagic ⊢
      exact EntryName.isPrefixOf_of_moved (.inr rfl) hmoved.symm (by decide) hmagic
    | archive =>
      rw [hkind] at h
      cases h
    | passthrough =>
      rw [hkind] at h
      cases h

end

end Conversion

/-! ## Files -/

/-- The format writes containers that can be told from their first bytes. -/
structure Container.Format.IsMarked (format : Container.Format) : Prop where
  start : ∀ entries, Container.Zip.signatureStart <+: format.write entries
  magic : ∀ entries, entries ≠ [] → ArtifactKind.containerMagic <+: format.write entries

/-- The ZIP format is marked, completed behind a mark that begins like a container with entries. -/
theorem Container.isMarked_completedBehind {mark : Bytes} (h : ArtifactKind.containerMagic <+: mark) :
    (zip.completedBehind mark).IsMarked where
  start entries := prefix_write_completedBehind
    ((show Zip.signatureStart <+: ArtifactKind.containerMagic by decide).trans h)
    (Zip.signatureStart_prefix_write entries)
  magic _ hne := prefix_write_completedBehind h (Zip.localSignature_prefix_write hne)

namespace Conversion

variable {format : Container.Format} {p : Profile} {mode : BufferMode} {depth : Nat}
  {path path' content : Bytes} {new : Option Bytes}

/-- **A converted file is not converted again.** Its new path may have `jakarta` for some `javax` in its
last part, if it is not one of a service registration and the old one was not. -/
theorem file_getD
    (hf : ArtifactKind.of path content = .archive →
      format.Faithful (Archive.Writable format p.table content))
    (hmarked : format.IsMarked)
    (hname : Moved oldRoot newRoot ((Path.fileName? path).getD []) ((Path.fileName? path').getD []))
    (hservice : ArtifactKind.isServiceFile path' → ArtifactKind.isServiceFile path)
    (hlegible : ArtifactKind.of path content = .manifest → Manifest.IsLegible content)
    (h : (Conversion.file (⟨format, p.table, mode⟩ : Conversion depth) path content).result = .ok new)
    (mode' : BufferMode) :
    (Conversion.file (⟨format, p.table, mode'⟩ : Conversion depth) path' (new.getD content)).result =
      .ok none := by
  rw [result_file, ArtifactKind.of_take] at h ⊢
  dsimp only at h ⊢
  by_cases hkind : ArtifactKind.of path content = .archive
  · rw [if_pos hkind] at h
    have hkind' : ArtifactKind.of path' (new.getD content) = .archive := by
      rw [ArtifactKind.of_eq_archive_iff] at hkind ⊢
      refine hkind.imp (fun harchive => ?_) fun hmagic => ?_
      · rwa [EntryName.isArchive_moved (.inl rfl) (.inr rfl) hname]
      · cases new with
        | none => exact hmagic
        | some out =>
          obtain ⟨items, written, -, hitems, rfl⟩ := Archive.migrateWith_eq_some_iff.1 h
          exact hmarked.magic written (Archive.ne_nil_of_migrateItems hitems)
    rw [if_pos hkind']
    cases new with
    | none => exact Archive.migrate_extends (Nat.le_refl _) h mode' path'
    | some out =>
      exact Archive.migrateWith_migrateWithin? (Archive.migratesOnce_migrateWithin? hmarked.start _)
        (hf hkind) h mode' path'
  · rw [if_neg hkind] at h
    obtain ⟨hmagic, hclass⟩ := head_of_convert? h hlegible
    have hconvert := convert?_getD h hlegible path'
    rcases ArtifactKind.of_moved (.inl rfl) (.inr rfl) hname hservice hkind hmagic hclass with hsame | hpass
    · rwa [hsame, if_neg hkind]
    · rw [hpass]
      rfl

end Conversion

end PackageMigration
