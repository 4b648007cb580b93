import Mathlib.Tactic.MkIffOfInductiveProp
import PackageMigration.Entry.Artifact
import PackageMigration.Entry.Kind
import PackageMigration.Proofs.FileSystem.Path
/-
  The kind of a file in a tree and the kind of the archive entry that has its name.

  * `EntryKind.artifact`: the kind of an entry as the kind of a file.
  * `PlainlyNamed`, `Routable`: what is asked of a name for the two kinds to agree.

  Main statements: `isServiceFile_iff`, `Routable.artifactKind_join`.
-/
namespace PackageMigration

/-! ## Names and their last parts -/

namespace EntryName

variable {name : Bytes}

theorem hasExtension_lastPart (extensions : List String) (name : Bytes) :
    hasExtension extensions (Bytes.lastPart Byte.slash name) = hasExtension extensions name := by
  rw [hasExtension, hasExtension, Bytes.lastPart_lastPart]

theorem isArchive_lastPart (name : Bytes) :
    isArchive (Bytes.lastPart Byte.slash name) = isArchive name := hasExtension_lastPart _ name

theorem isText_lastPart (name : Bytes) : isText (Bytes.lastPart Byte.slash name) = isText name :=
  hasExtension_lastPart _ name

theorem isClass_lastPart (name : Bytes) :
    isClass (Bytes.lastPart Byte.slash name) = isClass name := by
  rw [Bool.eq_iff_iff, isClass, isClass, List.isSuffixOf_iff_suffix, List.isSuffixOf_iff_suffix]
  exact Bytes.suffix_lastPart_iff (by decide)

/-- An archive has another extension than a class. -/
theorem not_isArchive_of_isClass (h : isClass name) : ¬ isArchive name := by
  rw [← isClass_lastPart, isClass, List.isSuffixOf_iff_suffix] at h
  obtain ⟨stem, hstem⟩ := h
  have hcut : Bytes.cutLast? Byte.dot (Bytes.lastPart Byte.slash name) = some (stem, bytes "class") :=
    Bytes.cutLast?_eq_some_iff.2 ⟨hstem.symm, by decide⟩
  rw [isArchive, hasExtension, hcut]
  have hext : (archiveExtensions.any fun e => Bytes.sameIgnoringCase (bytes "class") (bytes e)) = false := by
    decide
  simp [hext]

/-- The last part of the name of a manifest is `MANIFEST.MF`. -/
theorem sameIgnoringCase_of_isManifest (h : isManifest name) :
    Bytes.sameIgnoringCase (Bytes.lastPart Byte.slash name) (bytes "MANIFEST.MF") := by
  rw [Bytes.sameIgnoringCase, Bytes.lower_lastPart, eq_of_beq h]
  decide

theorem not_isDirectory_of_isIdle (h : Path.isIdle (Bytes.lastPart Byte.slash name) = false) :
    ¬ isDirectory name := by
  rw [isDirectory, beq_iff_eq]
  intro hlast
  obtain ⟨front, rfl⟩ := List.getLast?_eq_some_iff.1 hlast
  rw [Bytes.lastPart_append_cons (by simp) front] at h
  cases h

end EntryName

/-! ## Service registrations -/

namespace ArtifactKind

/-- The directory of service registrations, part by part. -/
def serviceParts : List Bytes := [bytes "META-INF", bytes "services"]

theorem suffix_pair_iff {α : Type} {a b : α} {l : List α} :
    [a, b] <:+ l ↔ l.getLast? = some b ∧ l.dropLast.getLast? = some a := by
  constructor
  · rintro ⟨front, rfl⟩
    simp
  · rintro ⟨hb, ha⟩
    obtain ⟨front, rfl⟩ := List.getLast?_eq_some_iff.1 hb
    rw [List.dropLast_concat] at ha
    obtain ⟨front, rfl⟩ := List.getLast?_eq_some_iff.1 ha
    exact ⟨front, by simp⟩

theorem fileName?_eq_some_iff {path name : Bytes} (h : name ≠ Path.above) :
    Path.fileName? path = some name ↔ (Path.names path).getLast? = some name := by
  rw [Path.fileName?_eq, Option.filter_eq_some_iff]
  simp [h]

/-- A file is taken for a service registration if its directory is called like one of them. -/
theorem isServiceFile_iff {path : Bytes} :
    isServiceFile path ↔ serviceParts <:+ (Path.names path).dropLast := by
  rw [serviceParts, suffix_pair_iff]
  unfold isServiceFile
  cases hparent : Path.parent? path with
  | none =>
    have hnil : Path.names path = [] := by
      by_contra hne
      obtain ⟨parent, hp⟩ := Path.exists_parent? hne
      rw [hparent] at hp
      cases hp
    simp [hnil]
  | some directory =>
    rw [← (Path.names_parent? hparent).1]
    dsimp only
    rw [Bool.and_eq_true, beq_iff_eq, beq_iff_eq, fileName?_eq_some_iff (by decide)]
    refine and_congr_right fun hlast => ?_
    have hne : Path.names directory ≠ [] := by
      intro hnil
      rw [hnil] at hlast
      cases hlast
    obtain ⟨parent, hp⟩ := Path.exists_parent? hne
    rw [hp, Option.bind_some, fileName?_eq_some_iff (by decide), (Path.names_parent? hp).1]

/-- In a directory that is no part of one of service registrations, only the path from there counts. -/
theorem isServiceFile_join_iff {root name : Bytes} (hname : Path.names name ≠ [])
    (hservice : ¬ serviceParts <:+ Path.names root)
    (hmeta : (Path.names root).getLast? ≠ some (bytes "META-INF")) :
    isServiceFile (Path.join root name) ↔ serviceParts <:+ (Path.names name).dropLast := by
  rw [isServiceFile_iff, Path.names_join, List.dropLast_append_of_ne_nil hname]
  refine ⟨fun h => ?_, fun h => h.trans (List.suffix_append _ _)⟩
  rcases List.eq_nil_or_concat' (Path.names name).dropLast with hnil | ⟨front, last, hlast⟩
  · rw [hnil, List.append_nil] at h
    exact absurd h hservice
  · rw [hlast] at h ⊢
    rw [serviceParts, suffix_pair_iff, ← List.append_assoc, List.getLast?_concat, List.dropLast_concat] at h
    rw [serviceParts, suffix_pair_iff, List.getLast?_concat, List.dropLast_concat]
    refine ⟨h.1, ?_⟩
    cases front with
    | nil => exact absurd (List.append_nil (Path.names root) ▸ h.2) hmeta
    | cons p front =>
      rw [← h.2, List.getLast?_append_of_ne_nil _ (List.cons_ne_nil p front)]

/-- The kind of a file depends on its first bytes only. -/
theorem of_take (path content : Bytes) : of path (content.take headSize) = of path content := by
  have hmagic : containerMagic.isPrefixOf (content.take headSize) = containerMagic.isPrefixOf content := by
    rw [Bool.eq_iff_iff, List.isPrefixOf_iff_prefix, List.isPrefixOf_iff_prefix, List.prefix_take_iff]
    simp [containerMagic, headSize]
  have hclass : looksLikeClass (content.take headSize) = looksLikeClass content := by
    rw [looksLikeClass, looksLikeClass, headSize, List.take_take, Nat.min_self]
  rw [of, of, hmagic, hclass]

end ArtifactKind

/-! ## The kinds of files and entries -/

/-- The kind of an entry as the kind of a file. -/
def EntryKind.artifact : EntryKind → ArtifactKind
  | .nestedArchive => .archive
  | .classBinary => .classBinary
  | .manifest => .manifest
  | .sourceText | .serviceRegistration => .sourceText
  | .directory | .signature | .passthrough => .passthrough

open EntryName in
/-- What is asked of the path of a file in a directory and of its content: the file is no manifest and
no signature, its content is what its name says, and the directory is not one that decides. -/
@[mk_iff]
structure PlainlyNamed (root name payload : Bytes) : Prop where
  isFile : Path.isIdle (Bytes.lastPart Byte.slash name) = false ∧
    Bytes.lastPart Byte.slash name ≠ Path.above
  notManifest : ¬ Bytes.sameIgnoringCase (Bytes.lastPart Byte.slash name) (bytes "MANIFEST.MF")
  notSignature : ¬ isSignature name
  container : ArtifactKind.containerMagic <+: payload → isArchive name
  classFile : looksLikeClass payload → isClass name
  service : isService name → ¬ isClass name ∧ ¬ isArchive name
  notServices : ¬ ArtifactKind.serviceParts <:+ Path.names root
  notMeta : (Path.names root).getLast? ≠ some (bytes "META-INF")

open EntryName in
/-- The file is treated like the archive entry with its path for a name: where only the place can tell
that they are service registrations, it tells the same of both. -/
@[mk_iff]
structure Routable (root name payload : Bytes) : Prop extends PlainlyNamed root name payload where
  place : ¬ isClass name → ¬ isArchive name → ¬ isText name →
    (isService name ↔ ArtifactKind.serviceParts <:+ (Path.names name).dropLast)

instance (root name payload : Bytes) : Decidable (PlainlyNamed root name payload) :=
  decidable_of_iff' _ (plainlyNamed_iff root name payload)

instance (root name payload : Bytes) : Decidable (Routable root name payload) :=
  decidable_of_iff' _ (routable_iff root name payload)

namespace PlainlyNamed

variable {root name payload : Bytes}

theorem getLast?_names (h : PlainlyNamed root name payload) :
    (Path.names name).getLast? = some (Bytes.lastPart Byte.slash name) :=
  Path.getLast?_names h.isFile.1

theorem names_ne_nil (h : PlainlyNamed root name payload) : Path.names name ≠ [] := by
  intro hnil
  have hlast := h.getLast?_names
  rw [hnil] at hlast
  cases hlast

theorem fileName?_join (h : PlainlyNamed root name payload) :
    Path.fileName? (Path.join root name) = some (Bytes.lastPart Byte.slash name) := by
  rw [ArtifactKind.fileName?_eq_some_iff h.isFile.2, Path.names_join,
    List.getLast?_append_of_ne_nil _ h.names_ne_nil, h.getLast?_names]

open EntryName in
/-- Of the kinds of entries those are left that files have. -/
theorem entryKind_eq (h : PlainlyNamed root name payload) :
    EntryKind.of name payload =
      if isClass name || looksLikeClass payload then .classBinary
      else if isService name then .serviceRegistration
      else if isArchive name then .nestedArchive
      else if isText name then .sourceText
      else .passthrough := by
  have hmanifest : ¬ isManifest name := fun hm => h.notManifest (sameIgnoringCase_of_isManifest hm)
  rw [EntryKind.of, if_neg (not_isDirectory_of_isIdle h.isFile.1), if_neg hmanifest, if_neg h.notSignature]

/-- The entry is one with content of its own. -/
theorem entryKind_ne (h : PlainlyNamed root name payload) :
    EntryKind.of name payload ≠ .directory ∧ EntryKind.of name payload ≠ .manifest ∧
      EntryKind.of name payload ≠ .signature := by
  rw [h.entryKind_eq]
  split_ifs <;> decide

end PlainlyNamed

open EntryName in
/-- **A file in a tree is of the kind of the entry of its name.** -/
theorem Routable.artifactKind_join {root name payload : Bytes} (h : Routable root name payload) :
    ArtifactKind.of (Path.join root name) (payload.take ArtifactKind.headSize) =
      (EntryKind.of name payload).artifact := by
  have hcontainer : ArtifactKind.containerMagic.isPrefixOf payload → isArchive name :=
    fun hp => h.container (List.isPrefixOf_iff_prefix.1 hp)
  have hfile := ArtifactKind.isServiceFile_join_iff h.names_ne_nil h.notServices h.notMeta
  rw [h.entryKind_eq, ArtifactKind.of_take]
  unfold ArtifactKind.of
  rw [h.fileName?_join, Option.getD_some]
  dsimp only
  rw [isArchive_lastPart, isClass_lastPart, isText_lastPart, if_neg h.notManifest]
  simp only [Bool.or_eq_true]
  by_cases harchive : isArchive name
  · have hclass : ¬ isClass name := fun hclass => not_isArchive_of_isClass hclass harchive
    have hhead : ¬ looksLikeClass payload := fun hhead => hclass (h.classFile hhead)
    have hservice : ¬ isService name := fun hservice => (h.service hservice).2 harchive
    simp [harchive, hclass, hhead, hservice, EntryKind.artifact]
  · have hcontainer := mt hcontainer harchive
    by_cases hclass : isClass name
    · simp [harchive, hcontainer, hclass, EntryKind.artifact]
    · have hhead : ¬ looksLikeClass payload := fun hhead => hclass (h.classFile hhead)
      by_cases htext : isText name
      · by_cases hservice : isService name <;>
          simp [harchive, hcontainer, hclass, hhead, htext, hservice, EntryKind.artifact]
      · have hplace := h.place hclass harchive htext
        rw [← hfile] at hplace
        by_cases hservice : isService name
        · simp [harchive, hcontainer, hclass, hhead, htext, hservice, hplace.1 hservice, EntryKind.artifact]
        · simp [harchive, hcontainer, hclass, hhead, htext, hservice, mt hplace.2 hservice,
            EntryKind.artifact]

end PackageMigration
