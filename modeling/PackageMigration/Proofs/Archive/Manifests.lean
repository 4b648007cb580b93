import PackageMigration.Proofs.Archive.Sections
/-
  Archives with several manifests.

  * `Renewed`: a manifest, and what is made of it when its archive is migrated.

  Main statements: `renewed_repairedFor`, `Writes.exists_manifest` (the last manifest is repaired, the
  others are copied), `migrate_manifests`.
-/
namespace PackageMigration.Archive

open Manifest (Section)

section
variable (nested : Nested) (t : Table) (label : Bytes) (es : List Container.Entry)

/-- A manifest, and what is made of it when its archive is migrated. A value is the old one with its
mapped names replaced, and at most the mark of the migration behind it. A section about an entry has
digests only if the entry has no new content and the archive has no signatures. -/
structure Renewed (m m' : Manifest) : Prop where
  values : ∀ s' ∈ m'.sections, ∀ a' ∈ s', ¬ a'.isName → ∃ s ∈ m.sections, ∃ a ∈ s, a'.name = a.name ∧
    (t.IsSettled → t.convert? (t.convert a.value) = none) ∧
    (a'.value = t.convert a.value ∨
      a'.value = t.convert a.value ++ Manifest.marker ++ bytes version)
  digests : ∃ ss, m'.entries = ss.filter (fun s => !s.isNameOnly) ∧
    List.Forall₂ (fun (s s' : Section) => ∀ e ∈ es, s.name? = some e.name → ∀ a' ∈ s', a'.isDigest →
      newData? nested t label e = none ∧ ∀ e' ∈ es, kindOf e' ≠ .signature) m.entries ss

end

variable {nested : Nested} {t : Table} {label : Bytes}
variable {e : Container.Entry} {es : List Container.Entry}

/-! ## One manifest -/

/-- Every value of a repaired manifest is a converted one. -/
theorem exists_convert_of_mem_repairedFor {data : Bytes} {m : Manifest} {s' : Section}
    {a' : Manifest.Attribute} (hm : Manifest.parse? data = .ok m)
    (hs' : s' ∈ (repairedFor nested t label es m).sections) (ha' : a' ∈ s') (hn : ¬ a'.isName) :
    ∃ s ∈ m.sections, ∃ a ∈ s, a'.name = a.name ∧ (a'.value = t.convert a.value ∨
      a'.value = t.convert a.value ++ Manifest.marker ++ bytes version) := by
  obtain ⟨s₁, hs₁, a₁, ha₁, hname, hvalue⟩ := Manifest.exists_repaired_of_mem hs' ha'
  rw [Manifest.getD_convertValues?] at hs₁
  obtain ⟨s, hs, a, ha, rfl⟩ := Manifest.exists_of_mem_mapAttributes hs₁ ha₁
  rw [Manifest.Attribute.isName_eq_of_name_eq (a := a) hname] at hn
  rw [Manifest.Attribute.converted_eq (Manifest.isProper_of_parse? hm s hs a ha), if_neg hn] at hvalue
  refine ⟨s, hs, a, ha, hname, ?_⟩
  rcases hvalue with hv | hv | ⟨hn', -⟩
  · exact .inl hv
  · exact .inr hv
  · exact absurd hn' hn

theorem kindOf_ne_of_signed_eq_false (h : (repairFor nested t label es).signed = false) :
    ∀ e ∈ es, kindOf e ≠ .signature := by
  intro e he hk
  exact List.any_eq_false.1 h e he (beq_iff_eq.2 hk)

/-- **What is made of a manifest.** -/
theorem renewed_repairedFor {data : Bytes} {m : Manifest} (hm : Manifest.parse? data = .ok m) :
    Renewed nested t label es m (repairedFor nested t label es m) := by
  refine ⟨fun s' hs' a' ha' hn => ?_, _, entries_repairedFor nested t label es m, ?_⟩
  · obtain ⟨s, hs, a, ha, hname, hvalue⟩ := exists_convert_of_mem_repairedFor hm hs' ha' hn
    exact ⟨s, hs, a, ha, hname, fun ht => ht.convert?_convert a.value, hvalue⟩
  · rw [List.forall₂_map_right_iff, List.forall₂_same]
    intro s _ e he hname a' ha' hd
    obtain ⟨-, hsigned, hchanged⟩ := mem_repairedSection_of_isDigest hname ha' hd
    exact ⟨newData?_of_changed_eq_false he hchanged, kindOf_ne_of_signed_eq_false hsigned⟩

/-! ## Several manifests -/

/-- The last manifest is written repaired, and one that another follows is written as it is. -/
theorem Writes.exists_manifest {before after ws : List Container.Entry}
    (h : Writes nested t label [] (before ++ e :: after) ws) (hk : kindOf e = .manifest) :
    ∃ w ∈ ws, w.name = e.name ∧
      (IsPicked e after → ∃ m, Manifest.parse? e.data = .ok m ∧
        w.data = (repairedFor nested t label (before ++ e :: after) m).bytes) ∧
      (¬ IsPicked e after → w.data = e.data) := by
  obtain ⟨w, hw, hwritten⟩ := h.leftOut_or_written.resolve_left (not_isLeftOut hk)
  refine ⟨w, hw, hwritten.name.trans (targetOf_of_isOwn (.inl hk)), hwritten.manifest, fun hp => ?_⟩
  obtain ⟨data, hdata, hwdata⟩ := hwritten.data hp
  rw [converted?, hk] at hdata
  obtain rfl := Except.ok.inj hdata
  exact hwdata

/-- **Of the manifests of an archive the last one is repaired**, and the others are copied: with the
mapped names in their values and the digests of entries that changed. So a manifest comes out repaired
exactly if it is the last one, or there is nothing in it to repair. -/
theorem migrate_manifests {format : Container.Format} {mode : BufferMode} {data out : Bytes}
    {depth : Nat}
    (h : (migrateWith format (migrateWithin? format t depth) t mode label data).result =
      .ok (some out)) :
    ∃ es written, format.read? data = some (es.map .entry) ∧ out = format.write written ∧
      (format.Faithful (Writable format t data) → format.read? out = some (written.map .entry)) ∧
      (written.map Container.Entry.name).Nodup ∧
      ∀ before e after, es = before ++ e :: after → kindOf e = .manifest →
        ∃ w ∈ written, w.name = e.name ∧
          (IsPicked e after → ∃ m, Manifest.parse? e.data = .ok m ∧
            w.data = (repairedFor (migrateWithin? format t depth) t label es m).bytes ∧
            Renewed (migrateWithin? format t depth) t label es m
              (repairedFor (migrateWithin? format t depth) t label es m)) ∧
          (¬ IsPicked e after → w.data = e.data) ∧
          ∀ m, Manifest.parse? e.data = .ok m →
            (w.data = (repairedFor (migrateWithin? format t depth) t label es m).bytes ↔
              IsPicked e after ∨
                e.data = (repairedFor (migrateWithin? format t depth) t label es m).bytes) := by
  obtain ⟨es, written, hread, rfl, hp, hw⟩ := exists_writes_of_migrateWith h
  refine ⟨es, written, hread, rfl, hw.read?_write hp hread, (hw.nodup hp).1, ?_⟩
  rintro before e after rfl hk
  obtain ⟨w, hmem, hname, hlast, hcopied⟩ := hw.exists_manifest hk
  refine ⟨w, hmem, hname, fun hpicked => ?_, hcopied, fun m hm => ?_⟩
  · obtain ⟨m, hm, hdata⟩ := hlast hpicked
    exact ⟨m, hm, hdata, renewed_repairedFor hm⟩
  · by_cases hpicked : IsPicked e after
    · obtain ⟨m', hm', hdata⟩ := hlast hpicked
      obtain rfl := Except.ok.inj (hm.symm.trans hm')
      exact iff_of_true hdata (.inl hpicked)
    · rw [hcopied hpicked, or_iff_right hpicked]

/-! ## Two manifests -/

/-- The manifest has a mapped name in a value, and a digest of the text in the archive. -/
def staleManifest : Manifest where
  main := [⟨bytes "A", bytes "javax.el.B"⟩]
  entries := [[⟨bytes "Name", bytes "a.txt"⟩, ⟨bytes "B", bytes "2"⟩, ⟨bytes "X-Digest", bytes "z"⟩]]

def renewedManifest : Manifest where
  main := [⟨bytes "A", bytes "jakarta.el.B"⟩]
  entries := [[⟨bytes "Name", bytes "a.txt"⟩, ⟨bytes "B", bytes "2"⟩]]

/-- An archive with two manifests, whose names differ in case. -/
def twiceListed : List Container.Entry :=
  [⟨bytes "META-INF/manifest.mf", .stored, none, staleManifest.bytes⟩,
    ⟨bytes "META-INF/MANIFEST.MF", .stored, none, staleManifest.bytes⟩,
    ⟨bytes "a.txt", .stored, none, bytes "javax.el.A"⟩]

theorem migrate_manifests_twice :
    let nested := migrateWithin? Container.zip Profile.tomcat.table nestingLimit
    let t := Profile.tomcat.table
    let label := bytes "c.jar"
    let out := Container.Zip.write
      [⟨bytes "META-INF/manifest.mf", .stored, some 0o100644, staleManifest.bytes⟩,
        ⟨bytes "META-INF/MANIFEST.MF", .stored, some 0o100644, renewedManifest.bytes⟩,
        ⟨bytes "a.txt", .stored, some 0o100644, bytes "jakarta.el.A"⟩]
    (migrate Container.zip t .inMemory label (Container.Zip.write twiceListed)).result =
        .ok (some out) ∧
      ∃ es written, Container.zip.read? (Container.Zip.write twiceListed) = some (es.map .entry) ∧
        out = Container.zip.write written ∧
        (Container.zip.Faithful (Writable Container.zip t (Container.Zip.write twiceListed)) →
          Container.zip.read? out = some (written.map .entry)) ∧
        (written.map Container.Entry.name).Nodup ∧
        ∀ before e after, es = before ++ e :: after → kindOf e = .manifest →
          ∃ w ∈ written, w.name = e.name ∧
            (IsPicked e after → ∃ m, Manifest.parse? e.data = .ok m ∧
              w.data = (repairedFor nested t label es m).bytes ∧
              Renewed nested t label es m (repairedFor nested t label es m)) ∧
            (¬ IsPicked e after → w.data = e.data) ∧
            ∀ m, Manifest.parse? e.data = .ok m →
              (w.data = (repairedFor nested t label es m).bytes ↔
                IsPicked e after ∨ e.data = (repairedFor nested t label es m).bytes) := by
  intro nested t label out
  have h : (migrate Container.zip t .inMemory label (Container.Zip.write twiceListed)).result =
      .ok (some out) := by
    simp only [t, Profile.table_eq_orderedTable]
    decide +kernel
  exact ⟨h, migrate_manifests h⟩

/-- The first of two manifests is copied, with a mapped name in a value and the digest of a text that
changed. -/
theorem migrate_copies_manifest :
    let t := Profile.tomcat.table
    let label := bytes "c.jar"
    let written : List Container.Entry :=
      [⟨bytes "META-INF/manifest.mf", .stored, some 0o100644, staleManifest.bytes⟩,
        ⟨bytes "META-INF/MANIFEST.MF", .stored, some 0o100644, renewedManifest.bytes⟩,
        ⟨bytes "a.txt", .stored, some 0o100644, bytes "jakarta.el.A"⟩]
    Container.zip.read? (Container.Zip.write twiceListed) = some (twiceListed.map .entry) ∧
      twiceListed.map kindOf = [.manifest, .manifest, .sourceText] ∧
      Manifest.parse? staleManifest.bytes = .ok staleManifest ∧
      (migrate Container.zip t .inMemory label (Container.Zip.write twiceListed)).result =
        .ok (some (Container.Zip.write written)) ∧
      repairedFor (migrateWithin? Container.zip t nestingLimit) t label twiceListed staleManifest =
        renewedManifest ∧
      staleManifest.bytes ≠ renewedManifest.bytes ∧
      t.convert? (bytes "javax.el.B") = some (bytes "jakarta.el.B") := by
  rw [Profile.table_eq_orderedTable]
  decide +kernel

end PackageMigration.Archive
