import PackageMigration.Proofs.Archive.Target
import PackageMigration.Proofs.Entry.Kind
import PackageMigration.Proofs.Manifest.Digest
/-
  A signed archive is not signed any more once it is migrated.

  * `IsSigned`: the archive holds a signature.

  Main statements: `Writes.of_isSignature` (which entries have the name of a signature),
  `migrate_unsigned`.
-/
namespace PackageMigration.Archive

/-- Some entry has the name of a signature, and is no class file. -/
def IsSigned (es : List Container.Entry) : Prop :=
  ∃ e ∈ es, EntryName.isSignature e.name ∧ kindOf e ≠ .classBinary

variable {nested : Nested} {t : Table} {label : Bytes} {es : List Container.Entry}

theorem kindOf_eq_signature {e : Container.Entry} (h : EntryName.isSignature e.name)
    (hc : kindOf e ≠ .classBinary) : kindOf e = .signature :=
  (EntryKind.of_isSignature h e.data).resolve_left hc

theorem signed_repairFor (h : IsSigned es) : (repairFor nested t label es).signed = true := by
  obtain ⟨e, he, hname, hc⟩ := h
  exact List.any_eq_true.2 ⟨e, he, beq_iff_eq.2 (kindOf_eq_signature hname hc)⟩

/-- **Only a class file or a renamed entry is written under the name of a signature.** -/
theorem Writes.of_isSignature {ws : List Container.Entry} (h : Writes nested t label [] es ws)
    {w : Container.Entry} (hw : w ∈ ws) (hname : EntryName.isSignature w.name) :
    ∃ e ∈ es, w.name = t.targetOf e ∧ (kindOf e = .classBinary ∨ t.targetOf e ≠ e.name) := by
  obtain ⟨ws₁, ws₂, rfl⟩ := List.append_of_mem hw
  obtain ⟨es₁, e, es₂, rfl, hleft, hwritten, -⟩ := h.exists_of_append
  refine ⟨e, by simp, hwritten.name, ?_⟩
  by_contra hne
  rw [not_or, not_not] at hne
  obtain ⟨hc, htarget⟩ := hne
  rw [hwritten.name, htarget] at hname
  exact hleft (.inl (kindOf_eq_signature hname hc))

/-- The last manifest is written without digests. -/
theorem Writes.freeOfDigests {before after ws : List Container.Entry} {e : Container.Entry}
    (h : Writes nested t label [] (before ++ e :: after) ws) (hp : IsPicked e after)
    (hs : IsSigned (before ++ e :: after)) :
    ∃ w ∈ ws, w.name = e.name ∧ (∃ m : Manifest, w.data = m.bytes ∧ m.FreeOfDigests) ∧
      ∀ m, Manifest.parse? w.data = .ok m → m.FreeOfDigests := by
  obtain ⟨w, hw, m, hname, hm, hdata⟩ := h.exists_repaired hp
  have hfree := Manifest.freeOfDigests_repair
    (r := repairFor nested t label (before ++ e :: after)) (signed_repairFor hs) (bytes version)
    ((m.convertValues? t).getD m)
  refine ⟨w, hw, hname, ⟨_, hdata, hfree⟩, fun m' hm' => ?_⟩
  rw [hdata] at hm'
  exact hfree.reread (isProper_repaired hm) hm'

/-- **A signed archive is not signed any more once it is migrated.** -/
theorem migrate_unsigned {format : Container.Format} {mode : BufferMode} {data out : Bytes}
    {depth : Nat} (hread : format.read? data = some (es.map .entry)) (hs : IsSigned es)
    (h : (migrateWith format (migrateWithin? format t depth) t mode label data).result =
      .ok (some out)) :
    ∃ written, out = format.write written ∧
      (format.Faithful (Writable format t data) → format.read? out = some (written.map .entry)) ∧
      (∀ w ∈ written, EntryName.isSignature w.name →
        ∃ e ∈ es, w.name = t.targetOf e ∧ (kindOf e = .classBinary ∨ t.targetOf e ≠ e.name)) ∧
      ∀ before e after, es = before ++ e :: after → IsPicked e after →
        ∃ w ∈ written, w.name = e.name ∧ (∃ m : Manifest, w.data = m.bytes ∧ m.FreeOfDigests) ∧
          ∀ m, Manifest.parse? w.data = .ok m → m.FreeOfDigests := by
  obtain ⟨es', written, hread', rfl, hp, hw⟩ := exists_writes_of_migrateWith h
  obtain rfl := eq_of_map_entry (Option.some.inj (hread.symm.trans hread'))
  refine ⟨written, rfl, hw.read?_write hp hread, fun w hmem => hw.of_isSignature hmem, ?_⟩
  rintro before e after rfl hpicked
  exact hw.freeOfDigests hpicked hs

theorem migrate_unsigned_jar :
    let es : List Container.Entry := [⟨bytes "META-INF/A.SF", .stored, none, []⟩,
      ⟨bytes "META-INF/MANIFEST.MF", .stored, none, bytes "A: 1\r\n\r\nName: a.txt\r\nX-Digest: z\r\n"⟩,
      ⟨bytes "a.txt", .stored, none, bytes "javax.el.A"⟩]
    let written : List Container.Entry := [⟨bytes "META-INF/MANIFEST.MF", .stored, some 0o100644,
      bytes "A: 1\r\n\r\n"⟩, ⟨bytes "a.txt", .stored, some 0o100644, bytes "jakarta.el.A"⟩]
    (migrate Container.zip Profile.tomcat.table .inMemory (bytes "c.jar") (Container.Zip.write es)).result =
        .ok (some (Container.Zip.write written)) ∧
      ∃ written', Container.Zip.write written = Container.zip.write written' ∧
        (∀ w ∈ written', EntryName.isSignature w.name → ∃ e ∈ es,
          w.name = Profile.tomcat.table.targetOf e ∧
            (kindOf e = .classBinary ∨ Profile.tomcat.table.targetOf e ≠ e.name)) ∧
        ∀ before e after, es = before ++ e :: after → IsPicked e after →
          ∃ w ∈ written', w.name = e.name ∧ (∃ m : Manifest, w.data = m.bytes ∧ m.FreeOfDigests) ∧
            ∀ m, Manifest.parse? w.data = .ok m → m.FreeOfDigests := by
  intro es written
  have h : (migrate Container.zip Profile.tomcat.table .inMemory (bytes "c.jar")
      (Container.Zip.write es)).result = .ok (some (Container.Zip.write written)) := by
    rw [Profile.table_eq_orderedTable]
    decide +kernel
  have hread : Container.zip.read? (Container.Zip.write es) = some (es.map .entry) := by
    decide +kernel
  have hs : IsSigned es := by
    unfold IsSigned
    decide +kernel
  obtain ⟨written', hout, -, hnames, hmanifest⟩ := migrate_unsigned hread hs h
  exact ⟨h, written', hout, hnames, hmanifest⟩

/-- A table that moves files into the directory of an archive's own ones. -/
def metaTable : Table where
  rules := [⟨bytes "INF.a.b", bytes "INF.c"⟩]
  roots := [bytes "INF"]
  depth := 3
  nonempty := by decide
  qualified := by decide +kernel
  distinct := by decide
  roots_eq := by decide
  depth_eq := by decide

/-- A class file keeps the name of a signature, a file can come to have one, and a section about no
entry keeps its digest. -/
theorem migrate_not_unsigned :
    let es : List Container.Entry := [⟨bytes "META-INF/A.SF", .stored, none, []⟩,
      ⟨bytes "META-INF/SIG-a.class", .stored, none,
        [0xCA, 0xFE, 0xBA, 0xBE, 0, 0, 0, 0x34, 0, 1, 0, 0, 0, 0, 0, 0]⟩,
      ⟨bytes "META-INF/a/b.SF", .stored, none, []⟩,
      ⟨bytes "META-INF/MANIFEST.MF", .stored, none, bytes "A: 1\r\n\r\nX-Digest: z\r\n"⟩]
    let written : List Container.Entry := [⟨bytes "META-INF/SIG-a.class", .stored, some 0o100644,
        [0xCA, 0xFE, 0xBA, 0xBE, 0, 0, 0, 0x34, 0, 1, 0, 0, 0, 0, 0, 0]⟩,
      ⟨bytes "META-INF/c.SF", .stored, some 0o100644, []⟩,
      ⟨bytes "META-INF/MANIFEST.MF", .stored, some 0o100644,
        bytes "A: 1\r\n\r\nX-Digest: z\r\n\r\n"⟩]
    Container.zip.read? (Container.Zip.write es) = some (es.map .entry) ∧
      EntryName.isSignature (bytes "META-INF/A.SF") ∧
      (migrate Container.zip metaTable .inMemory (bytes "c.jar") (Container.Zip.write es)).result =
        .ok (some (Container.Zip.write written)) ∧
      Container.zip.read? (Container.Zip.write written) = some (written.map .entry) ∧
      EntryName.isSignature (bytes "META-INF/SIG-a.class") ∧
      EntryName.isSignature (bytes "META-INF/c.SF") ∧
      Manifest.parse? (bytes "A: 1\r\n\r\nX-Digest: z\r\n\r\n") =
        .ok ⟨[⟨bytes "A", bytes "1"⟩], [[⟨bytes "X-Digest", bytes "z"⟩]]⟩ ∧
      Manifest.Attribute.isDigest ⟨bytes "X-Digest", bytes "z"⟩ := by
  decide +kernel

end PackageMigration.Archive
