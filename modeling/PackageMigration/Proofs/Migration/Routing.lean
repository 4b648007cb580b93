import PackageMigration.Migration.Conversion
import PackageMigration.Proofs.Archive.Label
import PackageMigration.Proofs.Archive.Unchanged
import PackageMigration.Proofs.Entry.Artifact
/-
  Files in a tree and entries of an archive with the same names come to the same.

  * `Conversion.entryContent?`: the new content of an archive entry by itself.
  * `Conversion.Holds`: the content that an archive has for an entry once it is migrated.

  Main statement: `file_join_eq_entryContent?`.
-/
namespace PackageMigration.Conversion

open Migration (Error Run)
open Archive (Nested converted? convertPayload? kindOf migrate migrateWithin?)

variable {depth : Nat}

/-- The content of an archive entry with its mapped names replaced, or none if it holds none. An archive
for an entry is migrated like any other one. -/
def entryContent? (c : Conversion depth) (label name payload : Bytes) : Except Error (Option Bytes) :=
  convertPayload?
    (fun label data => (migrate c.format c.table .inMemory label data depth).result) c.table
    (EntryKind.of name payload) label payload

/-- The content of an entry in what the archive `data` is migrated to, or in the archive itself if that
stays as it is. -/
def Holds (c : Conversion depth) (data : Bytes) (e : Container.Entry) (content : Bytes) :
    Option Bytes → Prop
  | none => content = e.data
  | some out => ∃ written, out = c.format.write written ∧
      (c.format.Faithful (Archive.Writable c.format c.table data) →
        c.format.read? out = some (written.map .entry)) ∧
      ∃ w ∈ written, w.name = c.table.targetOf e ∧ w.data = content

/-! ## Files -/

theorem result_file (c : Conversion depth) (path content : Bytes) :
    (c.file path content).result =
      if ArtifactKind.of path (content.take ArtifactKind.headSize) = .archive then
        (migrate c.format c.table c.mode path content depth).result
      else convert? c.table (ArtifactKind.of path (content.take ArtifactKind.headSize)) path content := by
  unfold file
  dsimp only
  split
  · rfl
  · simp only [Run.result_bind, Run.result_report, Run.result_ofExcept]
    cases convert? c.table _ path content <;> rfl

/-- The content of an entry that is no manifest is converted like that of a file of its kind. -/
theorem convertPayload?_eq {kind : EntryKind} (h : kind ≠ .manifest) (nested : Nested) (t : Table)
    (label payload : Bytes) :
    convertPayload? nested t kind label payload =
      if kind.artifact = .archive then nested label payload
      else convert? t kind.artifact label payload := by
  cases kind with
  | manifest => exact absurd rfl h
  | directory => rfl
  | classBinary => rfl
  | signature => rfl
  | serviceRegistration => rfl
  | nestedArchive => rfl
  | sourceText => rfl
  | passthrough => rfl

/-! ## Entries -/

theorem entryContent?_of_label {c : Conversion depth} {label name payload : Bytes}
    {new : Option Bytes}
    (h : c.entryContent? label name payload = .ok new) (label' : Bytes) :
    c.entryContent? label' name payload = .ok new :=
  Archive.convertPayload?_extends
    (fun _ _ _ hm label' => Archive.migrate_extends (Nat.le_refl _) hm .inMemory label') h label'

/-- An entry between others is converted like one by itself. -/
theorem entryContent?_of_converted? {c : Conversion depth} {label : Bytes} {e : Container.Entry}
    {new : Option Bytes}
    (h : converted? (migrateWithin? c.format c.table depth) c.table label e = .ok new)
    (label' : Bytes) : c.entryContent? label' e.name e.data = .ok new :=
  Archive.convertPayload?_extends (Archive.migrateWithin?_extends (Nat.le_succ depth)) h label'

/-- An entry that is no directory, manifest or signature has its own new content in the archive. -/
theorem exists_holds {c : Conversion depth} {mode : BufferMode} {label data : Bytes}
    {result : Option Bytes} {es : List Container.Entry} {e : Container.Entry}
    (hr : (migrate c.format c.table mode label data depth).result = .ok result)
    (hread : c.format.read? data = some (es.map .entry)) (he : e ∈ es)
    (hkind : kindOf e ≠ .directory ∧ kindOf e ≠ .manifest ∧ kindOf e ≠ .signature) :
    ∃ new, converted? (migrateWithin? c.format c.table depth) c.table label e = .ok new ∧
      c.Holds data e (new.getD e.data) result := by
  cases result with
  | none =>
    obtain ⟨es', hread', hunchanged⟩ := Archive.migrateWith_eq_none_iff_unchanged.1 hr
    obtain rfl := Archive.eq_of_map_entry (Option.some.inj (hread.symm.trans hread'))
    exact ⟨none, hunchanged.data e he, rfl⟩
  | some out =>
    obtain ⟨es', written, hread', rfl, hp, hw⟩ := Archive.exists_writes_of_migrateWith hr
    obtain rfl := Archive.eq_of_map_entry (Option.some.inj (hread.symm.trans hread'))
    obtain ⟨before, after, rfl⟩ := List.append_of_mem he
    rcases hw.leftOut_or_written with (hl | hl) | ⟨w, hmem, hwritten⟩
    · exact absurd hl hkind.2.2
    · exact absurd hl.1 hkind.1
    · obtain ⟨new, hnew, hdata⟩ := hwritten.data fun hpicked => hkind.2.1 hpicked.1
      exact ⟨new, hnew, written, rfl, hw.read?_write hp hread, w, hmem, hwritten.name, hdata⟩

/-! ## Files and entries -/

variable {root name payload : Bytes}

/-- **A file in a tree comes to what the entry of its name comes to.** One fails if the other does, and
with the same error if they are called the same. So an archive, if it can be migrated, holds for each
such entry what the tree has for the file. -/
theorem file_join_eq_entryContent? (c : Conversion depth) (h : Routable root name payload) :
    (c.file (Path.join root name) payload).result = c.entryContent? (Path.join root name) name payload ∧
    (∀ label, (c.file (Path.join root name) payload).result.toOption =
      (c.entryContent? label name payload).toOption) ∧
    ∀ (mode : BufferMode) (label data : Bytes) (result : Option Bytes) (es : List Container.Entry),
      (migrate c.format c.table mode label data depth).result = .ok result →
      c.format.read? data = some (es.map .entry) → ∀ e ∈ es, e.name = name → e.data = payload →
      ∃ new, (c.file (Path.join root name) payload).result = .ok new ∧
        c.Holds data e (new.getD payload) result := by
  have hfile : (c.file (Path.join root name) payload).result =
      c.entryContent? (Path.join root name) name payload := by
    rw [result_file, h.artifactKind_join, entryContent?, convertPayload?_eq h.entryKind_ne.2.1]
    simp only [Archive.migrate_inMemory c.format c.table c.mode]
  refine ⟨hfile, fun label => ?_, fun mode label data result es hr hread e he hname hdata => ?_⟩
  · rw [hfile]
    exact toOption_eq_toOption fun _ =>
      ⟨fun he => entryContent?_of_label he _, fun he => entryContent?_of_label he _⟩
  · subst hname hdata
    obtain ⟨new, hnew, hholds⟩ := exists_holds hr hread he h.entryKind_ne
    exact ⟨new, hfile.trans (entryContent?_of_converted? hnew _), hholds⟩

/-- A service registration in a tree and in an archive. -/
theorem file_join_eq_entryContent?_registration :
    let c : Conversion := ⟨Container.zip.completed, Profile.tomcat.table, .spooled⟩
    let name := bytes "META-INF/services/javax.el.A"
    let payload := bytes "javax.el.B"
    let e : Container.Entry := ⟨name, .stored, none, payload⟩
    let data := Container.Zip.write [e]
    let out := Container.Zip.write [⟨bytes "META-INF/services/jakarta.el.A", .stored, some 0o100644,
      bytes "jakarta.el.B"⟩]
    Routable (bytes "s") name payload ∧
      (c.file (Path.join (bytes "s") name) payload).result = .ok (some (bytes "jakarta.el.B")) ∧
      c.entryContent? (bytes "c.jar") name payload = .ok (some (bytes "jakarta.el.B")) ∧
      (migrate c.format c.table .inMemory (bytes "c.jar") data).result = .ok (some out) ∧
      c.Holds data e (bytes "jakarta.el.B") (some out) := by
  intro c name payload e data out
  have hroutable : Routable (bytes "s") name payload := by decide
  obtain ⟨hfile, -, harchive⟩ := file_join_eq_entryContent? c hroutable
  have hconvert : c.table.convert? payload = some (bytes "jakarta.el.B") := by
    rw [show c.table = Profile.tomcat.table from rfl, Profile.table_eq_orderedTable]
    decide +kernel
  have hentry : ∀ label, c.entryContent? label name payload = .ok (some (bytes "jakarta.el.B")) := by
    intro label
    rw [entryContent?, show EntryKind.of name payload = .serviceRegistration by decide]
    exact congrArg Except.ok hconvert
  have hmigrate : (migrate c.format c.table .inMemory (bytes "c.jar") data).result =
      .ok (some out) := by
    rw [show c.table = Profile.tomcat.table from rfl, Profile.table_eq_orderedTable]
    decide +kernel
  have hread : c.format.read? data = some [.entry e] := by decide +kernel
  obtain ⟨new, hnew, hholds⟩ := harchive .inMemory (bytes "c.jar") data (some out) [e] hmigrate hread e
    (by simp) rfl rfl
  obtain rfl := Except.ok.inj (hnew.symm.trans (hfile.trans (hentry _)))
  exact ⟨hroutable, hnew, hentry _, hmigrate, hholds⟩

/-- An entry is a service registration anywhere under the directory for them at the top of the archive, a
file only right in such a directory, but wherever that is. -/
theorem file_join_ne_entryContent? :
    let c : Conversion := ⟨Container.zip.completed, Profile.tomcat.table, .inMemory⟩
    let payload := bytes "javax.el.A"
    let new := some (bytes "jakarta.el.A")
    let deeper := bytes "w/META-INF/services/B"
    let below := bytes "META-INF/services/a/B"
    (PlainlyNamed (bytes "s") deeper payload ∧
      (c.file (Path.join (bytes "s") deeper) payload).result = .ok new ∧
      c.entryContent? (Path.join (bytes "s") deeper) deeper payload = .ok none) ∧
    PlainlyNamed (bytes "s") below payload ∧
      (c.file (Path.join (bytes "s") below) payload).result = .ok none ∧
      c.entryContent? (Path.join (bytes "s") below) below payload = .ok new := by
  intro c payload new deeper below
  have hconvert : c.table.convert? payload = new := by
    rw [show c.table = Profile.tomcat.table from rfl, Profile.table_eq_orderedTable]
    decide +kernel
  refine ⟨⟨by decide, ?_, ?_⟩, by decide, ?_, ?_⟩
  · rw [result_file, show ArtifactKind.of _ _ = .sourceText by decide +kernel]
    exact congrArg Except.ok hconvert
  · rw [entryContent?, show EntryKind.of deeper payload = .passthrough by decide]
    rfl
  · rw [result_file, show ArtifactKind.of _ _ = .passthrough by decide +kernel]
    rfl
  · rw [entryContent?, show EntryKind.of below payload = .serviceRegistration by decide]
    exact congrArg Except.ok hconvert

end PackageMigration.Conversion
