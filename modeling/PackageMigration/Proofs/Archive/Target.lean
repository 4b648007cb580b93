import PackageMigration.Proofs.Archive.Completeness
import PackageMigration.Proofs.Entry.Kind
import PackageMigration.Proofs.Manifest.Repair
/-
  The names of the entries of a migrated archive, whatever the table.

  * `IsOwn`: the archive's own files.

  Main statements: `Writes.exists_repaired`, `renamed_repairFor_eq_some_iff` (entries with one name have
  one new name), `reworded_targetOf`, `isProper_repaired` (the manifest with the new names can be read),
  `kindOf_eq_directory_iff_targetOf` (directories stay what they are).
-/
namespace PackageMigration.Archive

variable {nested : Nested} {t : Table} {label : Bytes} {e : Container.Entry}

/-- The entry is one of the archive's own files, which never move. -/
def IsOwn (e : Container.Entry) : Prop := kindOf e = .manifest ∨ kindOf e = .signature

theorem targetOf_of_isOwn (h : IsOwn e) : t.targetOf e = e.name := by
  rw [Table.targetOf, Table.renamed_route_of_own h]
  rfl

/-- The new name of any other entry depends on nothing but its name. -/
theorem targetOf_of_not_isOwn (h : ¬ IsOwn e) : t.targetOf e = (t.renameEntry? e.name).getD e.name := by
  rw [Table.targetOf, Table.renamed_route_of_not_own h]

/-- The last manifest is written under its name, repaired. -/
theorem Writes.exists_repaired {before after ws : List Container.Entry}
    (h : Writes nested t label [] (before ++ e :: after) ws) (hp : IsPicked e after) :
    ∃ w ∈ ws, ∃ m, w.name = e.name ∧ Manifest.parse? e.data = .ok m ∧
      w.data = repairedData nested t label (before ++ e :: after) m := by
  obtain ⟨w, hw, hwritten⟩ := h.leftOut_or_written.resolve_left (not_isLeftOut hp.1)
  obtain ⟨m, hm, hdata⟩ := hwritten.manifest hp
  exact ⟨w, hw, m, hwritten.name.trans (targetOf_of_isOwn (.inl hp.1)), hm, hdata⟩

/-- **Entries with one name have one new name.** -/
theorem renamed_repairFor_eq_some_iff {es : List Container.Entry} {name new : Bytes} :
    (repairFor nested t label es).renamed name = some new ↔
      ∃ e ∈ es, e.name = name ∧ t.targetOf e ≠ name ∧ t.targetOf e = new := by
  have hfound : ∀ e', (es.reverse.find? fun e => t.targetOf e != e.name && e.name == name) = some e' →
      e' ∈ es ∧ e'.name = name ∧ t.targetOf e' ≠ name := by
    intro e' hf
    have hsome := List.find?_some hf
    rw [Bool.and_eq_true, bne_iff_ne, beq_iff_eq] at hsome
    exact ⟨List.mem_reverse.1 (List.mem_of_find?_eq_some hf), hsome.2, hsome.2 ▸ hsome.1⟩
  rw [repairFor, Option.map_eq_some_iff]
  constructor
  · rintro ⟨e, hf, rfl⟩
    obtain ⟨he, hname, hne⟩ := hfound e hf
    exact ⟨e, he, hname, hne, rfl⟩
  · rintro ⟨e, he, rfl, hne, rfl⟩
    cases hf : es.reverse.find? fun e' => t.targetOf e' != e'.name && e'.name == e.name with
    | none =>
      have hnone := List.find?_eq_none.1 hf e (List.mem_reverse.2 he)
      simp [hne] at hnone
    | some e' =>
      obtain ⟨-, hname, hne'⟩ := hfound e' hf
      refine ⟨e', rfl, ?_⟩
      rw [targetOf_of_not_isOwn fun h => hne' (hname ▸ targetOf_of_isOwn h),
        targetOf_of_not_isOwn (mt targetOf_of_isOwn hne), hname]

/-- What a repair makes of the name of an entry. -/
theorem getD_renamed_repairFor {es : List Container.Entry} (he : e ∈ es) (h : ¬ IsOwn e) :
    ((repairFor nested t label es).renamed e.name).getD e.name = t.targetOf e := by
  cases hr : (repairFor nested t label es).renamed e.name with
  | none =>
    by_contra hne
    have hsome : (repairFor nested t label es).renamed e.name = some (t.targetOf e) :=
      renamed_repairFor_eq_some_iff.2 ⟨e, he, rfl, fun h => hne h.symm, rfl⟩
    rw [hr] at hsome
    cases hsome
  | some new =>
    obtain ⟨e', -, hname, hne, rfl⟩ := renamed_repairFor_eq_some_iff.1 hr
    have hown : ¬ IsOwn e' := fun h => hne ((targetOf_of_isOwn h).trans hname)
    rw [Option.getD_some, targetOf_of_not_isOwn hown, targetOf_of_not_isOwn h, hname]

theorem isLine_version : Manifest.IsLine (bytes version) ∧ Bytes.IsText (bytes version) :=
  ⟨⟨by decide, by decide⟩, Bytes.isText_bytes _⟩

theorem reworded_targetOf (t : Table) (e : Container.Entry) : Reworded e.name (t.targetOf e) := by
  by_cases hown : IsOwn e
  · rw [targetOf_of_isOwn hown]
    exact .refl _
  · rw [targetOf_of_not_isOwn hown]
    cases h : t.renameEntry? e.name with
    | none => exact .refl _
    | some name => exact Table.reworded_renameEntry? h

theorem reworded_of_renamed {es : List Container.Entry} {name new : Bytes}
    (h : (repairFor nested t label es).renamed name = some new) : Reworded name new := by
  obtain ⟨e, -, rfl, -, rfl⟩ := renamed_repairFor_eq_some_iff.1 h
  exact reworded_targetOf t e

theorem isProper_repaired {es : List Container.Entry} {data : Bytes} {m : Manifest}
    (hm : Manifest.parse? data = .ok m) :
    (((m.convertValues? t).getD m).repair (repairFor nested t label es) (bytes version)).IsProper :=
  (Manifest.isProper_convertValues? (Manifest.isProper_of_parse? hm)).repair reworded_of_renamed
    isLine_version

theorem kindOf_eq_directory_iff : kindOf e = .directory ↔ e.name.getLast? = some Byte.slash := by
  have hdir : EntryName.isDirectory e.name ↔ e.name.getLast? = some Byte.slash := by
    rw [EntryName.isDirectory, beq_iff_eq]
  rw [← hdir, kindOf, EntryKind.of]
  by_cases h : EntryName.isDirectory e.name
  · simp [h]
  · refine iff_of_false (fun hk => ?_) h
    rw [if_neg h] at hk
    repeat' split at hk
    all_goals cases hk

/-- Directories stay directories, and other entries do not become any. -/
theorem kindOf_eq_directory_iff_targetOf :
    kindOf e = .directory ↔ (t.targetOf e).getLast? = some Byte.slash :=
  kindOf_eq_directory_iff.trans ((reworded_targetOf t e).getLast?_iff (by decide))

end PackageMigration.Archive
