import PackageMigration.Proofs.Archive.Target
import PackageMigration.Proofs.Manifest.Section
/-
  The sections of a manifest follow the entries that they are about.

  * `Follows`: a section about an entry, and what is made of it in the migrated archive.
  * `repairedFor`, `repairedSection`: the manifest that is written, and its sections.

  Main statements: `Writes.exists_kept` (an entry without new content is written with the content it
  has), `follows_repairedSection`, `migrate_sections`.
-/
namespace PackageMigration.Archive

open Manifest (Section)

/-- What is made of a section about an entry behind others. It is there if it says more about the entry
than its name and its digests, has the new name of the entry and says the same about it, with mapped
names replaced. A digest in it is still that of the entry, unless the entry is left out. -/
structure Follows (t : Table) (before : List Container.Entry) (e : Container.Entry)
    (written : List Container.Entry) (repaired : Manifest) (s s' : Section) : Prop where
  present : s.SaysMore → s' ∈ repaired.entries
  name : s'.name? = some (t.targetOf e)
  attributes : s'.withoutDigests =
    Section.update Manifest.nameAttribute (fun _ => t.targetOf e)
      (s.withoutDigests.map (Manifest.Attribute.converted t))
  digests : ∀ a' ∈ s', a'.isDigest → (∃ a ∈ s, a' = a.converted t) ∧
    (¬ IsLeftOut t before e → ∃ w ∈ written, w.name = t.targetOf e ∧ w.data = e.data)

variable {nested : Nested} {t : Table} {label : Bytes}
variable {e : Container.Entry} {es : List Container.Entry}

/-! ## Entries -/

theorem newData?_of_changed_eq_false (he : e ∈ es)
    (h : (repairFor nested t label es).changed e.name = false) : newData? nested t label e = none := by
  have hnone := List.any_eq_false.1 h e he
  simpa using hnone

/-- An entry without new content is written with the content it has, if it is written. -/
theorem Writes.exists_kept {before after ws : List Container.Entry}
    (h : Writes nested t label [] (before ++ e :: after) ws) (hl : ¬ IsLeftOut t before e)
    (hm : kindOf e ≠ .manifest) (hd : newData? nested t label e = none) :
    ∃ w ∈ ws, w.name = t.targetOf e ∧ w.data = e.data := by
  obtain ⟨w, hw, hwritten⟩ := h.leftOut_or_written.resolve_left hl
  obtain ⟨data, hdata, hwdata⟩ := hwritten.data fun hp => hm hp.1
  obtain rfl : none = data := hd.symm.trans (converted?_eq_ok_iff.1 hdata).2
  exact ⟨w, hw, hwritten.name, hwdata⟩

/-! ## Sections -/

section
variable (nested t label es)

/-- The manifest that is written for a manifest. -/
def repairedFor (m : Manifest) : Manifest :=
  ((m.convertValues? t).getD m).repair (repairFor nested t label es) (bytes version)

/-- The section that is made of a section about an entry. -/
def repairedSection (s : Section) : Section :=
  Section.repair (repairFor nested t label es) (s.map (Manifest.Attribute.converted t))

theorem entries_repairedFor (m : Manifest) :
    (repairedFor nested t label es m).entries =
      (m.entries.map (repairedSection nested t label es)).filter fun s => !s.isNameOnly := by
  rw [repairedFor, Manifest.entries_repair, Manifest.getD_convertValues?, Manifest.mapAttributes,
    List.map_map]
  rfl

end

/-- A digest stays only if the entry has no new content and the archive has no signatures. -/
theorem mem_repairedSection_of_isDigest {s : Section} {a' : Manifest.Attribute} {name : Bytes}
    (hname : s.name? = some name) (ha' : a' ∈ repairedSection nested t label es s)
    (hd : a'.isDigest) : (∃ a ∈ s, a' = a.converted t) ∧
      (repairFor nested t label es).signed = false ∧
      (repairFor nested t label es).changed name = false := by
  have hconverted : Section.name? (s.map (Manifest.Attribute.converted t)) = some name := by
    rw [Section.name?_map_converted, hname]
  obtain ⟨ha, hkept⟩ := Section.mem_repair_of_isDigest hconverted ha' hd
  obtain ⟨a, ha, hconv⟩ := List.mem_map.1 ha
  exact ⟨⟨a, ha, hconv.symm⟩, hkept⟩

/-- A section is made into one that follows the entry. -/
theorem follows_repairedSection {before after ws : List Container.Entry} {m : Manifest} {s : Section}
    (h : Writes nested t label [] (before ++ e :: after) ws) (hown : ¬ IsOwn e)
    (hs : s ∈ m.entries) (hname : s.name? = some e.name) :
    Follows t before e ws (repairedFor nested t label (before ++ e :: after) m) s
      (repairedSection nested t label (before ++ e :: after) s) := by
  have he : e ∈ before ++ e :: after := by simp
  have hconverted : Section.name? (s.map (Manifest.Attribute.converted t)) = some e.name := by
    rw [Section.name?_map_converted, hname]
  have htarget : ((repairFor nested t label (before ++ e :: after)).renamed e.name).getD e.name =
      t.targetOf e := getD_renamed_repairFor he hown
  refine ⟨fun hmore => ?_, ?_, ?_, fun a' ha' hd => ?_⟩
  · rw [entries_repairedFor]
    have hleft := Section.isNameOnly_repair (r := repairFor nested t label (before ++ e :: after))
      hconverted (hmore.map_converted t)
    exact List.mem_filter.2 ⟨List.mem_map_of_mem hs, by rw [repairedSection, hleft]; rfl⟩
  · rw [repairedSection, Section.name?_repair hconverted, htarget]
  · rw [repairedSection, Section.withoutDigests_repair hconverted, htarget,
      Section.withoutDigests_map_converted]
  · obtain ⟨ha, -, hchanged⟩ := mem_repairedSection_of_isDigest hname ha' hd
    exact ⟨ha, fun hl =>
      h.exists_kept hl (fun hm => hown (.inl hm)) (newData?_of_changed_eq_false he hchanged)⟩

/-- **The sections of a manifest follow the entries that they are about.** Sections that are left with
nothing but a name go. Archives may be in one another to any depth. -/
theorem migrate_sections {format : Container.Format} {mode : BufferMode} {data out : Bytes}
    {depth : Nat} {before after : List Container.Entry}
    (hread : format.read? data = some ((before ++ e :: after).map .entry)) (hpicked : IsPicked e after)
    (h : (migrateWith format (migrateWithin? format t depth) t mode label data).result =
      .ok (some out)) :
    ∃ written m repaired ss, out = format.write written ∧
      (format.Faithful (Writable format t data) → format.read? out = some (written.map .entry)) ∧
      Manifest.parse? e.data = .ok m ∧
      repaired = repairedFor (migrateWithin? format t depth) t label (before ++ e :: after) m ∧
      (∃ w ∈ written, w.name = e.name ∧ w.data = repaired.bytes) ∧
      repaired.entries = ss.filter (fun s => !s.isNameOnly) ∧
      List.Forall₂ (fun s s' => ∀ before' e' after', before ++ e :: after = before' ++ e' :: after' →
        ¬ IsOwn e' → s.name? = some e'.name →
          Follows t before' e' written repaired s s') m.entries ss := by
  obtain ⟨es, written, hread', hout, hp, hw⟩ := exists_writes_of_migrateWith h
  obtain rfl := eq_of_map_entry (Option.some.inj (hread.symm.trans hread'))
  obtain ⟨w, hmem, m, hname, hm, hdata⟩ := hw.exists_repaired hpicked
  refine ⟨written, m, _, _, hout, fun hf => hout ▸ hw.read?_write hp hread hf, hm, rfl,
    ⟨w, hmem, hname, hdata⟩,
    entries_repairedFor _ t label _ m, ?_⟩
  rw [List.forall₂_map_right_iff, List.forall₂_same]
  intro s hs before' e' after' hes hown hsname
  rw [hes]
  exact follows_repairedSection (hes ▸ hw) hown hs hsname

/-- A section follows a renamed file, and one keeps its digest. -/
theorem migrate_sections_jar :
    let digest : Manifest.Attribute := ⟨bytes "X-Digest", bytes "z"⟩
    let about (name value : Bytes) : Section := [⟨bytes "Name", name⟩, ⟨bytes "B", value⟩]
    let input : Manifest := ⟨[], [about (bytes "javax/el/A.txt") (bytes "javax.el.B") ++ [digest],
      about (bytes "b") (bytes "2") ++ [digest]]⟩
    let output : Manifest := ⟨[], [about (bytes "jakarta/el/A.txt") (bytes "jakarta.el.B"),
      about (bytes "b") (bytes "2") ++ [digest]]⟩
    let e : Container.Entry := ⟨bytes "META-INF/MANIFEST.MF", .stored, none, input.bytes⟩
    let after : List Container.Entry := [⟨bytes "javax/el/A.txt", .stored, none, bytes "javax.el.A"⟩,
      ⟨bytes "b", .stored, none, []⟩]
    let out := Container.Zip.write [⟨e.name, .stored, some 0o100644, output.bytes⟩,
      ⟨bytes "jakarta/el/A.txt", .stored, some 0o100644, bytes "jakarta.el.A"⟩,
      ⟨bytes "b", .stored, some 0o100644, []⟩]
    (migrate Container.zip Profile.tomcat.table .inMemory (bytes "c.jar")
        (Container.Zip.write (e :: after))).result = .ok (some out) ∧
      ∃ written m repaired ss, out = Container.zip.write written ∧ Manifest.parse? e.data = .ok m ∧
        repaired = repairedFor (migrateWithin? Container.zip Profile.tomcat.table nestingLimit)
          Profile.tomcat.table (bytes "c.jar") (e :: after) m ∧
        (∃ w ∈ written, w.name = e.name ∧ w.data = repaired.bytes) ∧
        repaired.entries = ss.filter (fun s => !s.isNameOnly) ∧
        List.Forall₂ (fun s s' => ∀ before' e' after', e :: after = before' ++ e' :: after' →
          ¬ IsOwn e' → s.name? = some e'.name →
            Follows Profile.tomcat.table before' e' written repaired s s') m.entries ss := by
  intro digest about input output e after out
  have h : (migrate Container.zip Profile.tomcat.table .inMemory (bytes "c.jar")
      (Container.Zip.write (e :: after))).result = .ok (some out) := by
    rw [Profile.table_eq_orderedTable]
    decide +kernel
  have hread : Container.zip.read? (Container.Zip.write (e :: after)) =
      some (([] ++ e :: after).map .entry) := by
    decide +kernel
  have hpicked : IsPicked e after := by
    unfold IsPicked
    decide +kernel
  obtain ⟨written, m, repaired, ss, hout, -, hm, hrepaired, hw, hentries, hss⟩ :=
    migrate_sections hread hpicked h
  exact ⟨h, written, m, repaired, ss, hout, hm, hrepaired, hw, hentries, hss⟩

/-- The name in the main section stays. The section about a directory that is left out keeps a digest,
though the content that it is of is not written. -/
theorem migrate_not_followed :
    let main : Section := [⟨bytes "Name", bytes "javax/el/A.txt"⟩, ⟨bytes "A", bytes "1"⟩]
    let about (name : Bytes) : Section :=
      [⟨bytes "Name", name⟩, ⟨bytes "B", bytes "2"⟩, ⟨bytes "X-Digest", bytes "z"⟩]
    let input : Manifest := ⟨main, [about (bytes "javax/el/")]⟩
    let output : Manifest := ⟨main, [about (bytes "jakarta/el/")]⟩
    let es : List Container.Entry := [⟨bytes "META-INF/MANIFEST.MF", .stored, none, input.bytes⟩,
      ⟨bytes "javax/el/A.txt", .stored, none, []⟩, ⟨bytes "jakarta/el/", .stored, none, bytes "x"⟩,
      ⟨bytes "javax/el/", .stored, none, bytes "y"⟩]
    let written : List Container.Entry :=
      [⟨bytes "META-INF/MANIFEST.MF", .stored, some 0o100644, output.bytes⟩,
        ⟨bytes "jakarta/el/A.txt", .stored, some 0o100644, []⟩,
        ⟨bytes "jakarta/el/", .stored, some 0o100644, bytes "x"⟩]
    Container.zip.read? (Container.Zip.write es) = some (es.map .entry) ∧
      Manifest.parse? input.bytes = .ok input ∧
      (migrate Container.zip Profile.tomcat.table .inMemory (bytes "c.jar")
        (Container.Zip.write es)).result = .ok (some (Container.Zip.write written)) ∧
      es.map Profile.tomcat.table.targetOf = [bytes "META-INF/MANIFEST.MF", bytes "jakarta/el/A.txt",
        bytes "jakarta/el/", bytes "jakarta/el/"] ∧
      output.main.name? = some (bytes "javax/el/A.txt") ∧
      Manifest.Attribute.isDigest ⟨bytes "X-Digest", bytes "z"⟩ ∧
      ∀ w ∈ written, w.data ≠ bytes "y" := by
  rw [Profile.table_eq_orderedTable]
  decide +kernel

end PackageMigration.Archive
