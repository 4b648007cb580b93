import PackageMigration.Proofs.Archive.Outcome
/-
  The order of the entries of an archive does not matter for what becomes of them.

  * `manifestCount`: how many entries are manifests.
  * `files`: the entries that are no directories.
  * `writtenFiles`, `directoryNames`: what a migrated archive holds, by names.

  Main statements: `plannable_iff_nodup`, `exists_migrateItems_eq_ok_iff_of_manifestCount`,
  `migrateItems_eq_none_iff_of_manifestCount` (how a migration ends, without the order),
  `repairFor_perm`, `Writes.mem_of_perm`, `migrate_perm`.
-/
namespace PackageMigration.Archive

/-- How many entries are manifests. -/
def manifestCount (items : List Container.Item) : Nat :=
  items.countP fun
    | .entry e => kindOf e == .manifest
    | _ => false

variable {nested : Nested} {t : Table} {label : Bytes} {mode : BufferMode}
variable {e : Container.Entry} {es es' : List Container.Entry}

/-! ## One manifest -/

theorem manifestCount_le_of_perm {items items' : List Container.Item} (h : items.Perm items')
    (hone : manifestCount items ≤ 1) : manifestCount items' ≤ 1 :=
  (h.countP_eq _).ge.trans hone

/-- A manifest is picked if it is the only one. -/
theorem isPicked_iff_of_manifestCount {before after : List Container.Entry}
    (hone : manifestCount ((before ++ e :: after).map .entry) ≤ 1) :
    IsPicked e after ↔ kindOf e = .manifest := by
  refine ⟨And.left, fun hk => ⟨hk, fun e' he' hk' => ?_⟩⟩
  obtain ⟨after₁, after₂, rfl⟩ := List.append_of_mem he'
  simp [manifestCount, hk, hk'] at hone
  omega

/-- What is asked of the plan of the manifest is asked of the manifest. -/
theorem forall_find?_plansOfAll_iff (hone : manifestCount (es.map .entry) ≤ 1) {P : Bytes → Prop} :
    (∀ p, ((plansOfAll nested t label es).find? fun p => p.kind == .manifest) = some p →
        P p.entry.data) ↔ ∀ e ∈ es, kindOf e = .manifest → P e.data := by
  simp only [find?_plansOfAll_eq_some_iff]
  constructor
  · intro h e he hk
    obtain ⟨before, after, rfl⟩ := List.append_of_mem he
    exact h _ ⟨before, e, after, rfl, (isPicked_iff_of_manifestCount hone).2 hk, rfl⟩
  · rintro h _ ⟨before, e, after, rfl, hpicked, rfl⟩
    exact h e (by simp) hpicked.1

/-! ## How a migration ends -/

theorem plannable_cons_iff {before : List Container.Entry} :
    Plannable nested t label before (e :: es) ↔
      converted? nested t label e = .ok (newData? nested t label e) ∧
        (t.targetOf e ∈ before.map t.targetOf → kindOf e = .directory) ∧
        Plannable nested t label (before ++ [e]) es :=
  ⟨fun | .cons hc hd hp => ⟨hc, hd, hp⟩, fun ⟨hc, hd, hp⟩ => .cons hc hd hp⟩

/-- The entries that are no directories. -/
def files (es : List Container.Entry) : List Container.Entry := es.filter fun e => kindOf e != .directory

theorem mem_files_iff : e ∈ files es ↔ e ∈ es ∧ kindOf e ≠ .directory := by
  rw [files, List.mem_filter, bne_iff_ne]

/-- **Entries can be planned if the files among them have names of their own**, whatever their order. -/
theorem plannable_iff_nodup {before : List Container.Entry} :
    Plannable nested t label before es ↔
      (∀ e ∈ es, converted? nested t label e = .ok (newData? nested t label e)) ∧
        ((files es).map t.targetOf).Nodup ∧
        ∀ e ∈ files es, t.targetOf e ∉ before.map t.targetOf := by
  induction es generalizing before with
  | nil => exact iff_of_true .nil ⟨nofun, .nil, nofun⟩
  | cons e es ih =>
    rw [plannable_cons_iff, ih, List.forall_mem_cons]
    by_cases hk : kindOf e = .directory
    · have hfiles : files (e :: es) = files es := List.filter_cons_of_neg (by simp [hk])
      have hbefore : (∀ e' ∈ files es, t.targetOf e' ∉ (before ++ [e]).map t.targetOf) ↔
          ∀ e' ∈ files es, t.targetOf e' ∉ before.map t.targetOf := by
        refine forall₂_congr fun e' he' => ?_
        -- no file comes to have the name of a directory
        have hne : t.targetOf e' ≠ t.targetOf e := fun h => mem_files_iff.1 he' |>.2 <|
          kindOf_eq_directory_iff_targetOf.2 (h ▸ kindOf_eq_directory_iff_targetOf.1 hk)
        simp [hne]
      rw [hfiles, hbefore]
      tauto
    · have hfiles : files (e :: es) = e :: files es := List.filter_cons_of_pos (by simp [hk])
      have hbefore : (∀ e' ∈ files es, t.targetOf e' ∉ (before ++ [e]).map t.targetOf) ↔
          t.targetOf e ∉ (files es).map t.targetOf ∧
            ∀ e' ∈ files es, t.targetOf e' ∉ before.map t.targetOf := by
        simp only [List.map_append, List.mem_append, List.map_singleton, List.mem_singleton, not_or,
          List.mem_map, not_exists, not_and]
        exact ⟨fun h => ⟨fun e' he' => (h e' he').2, fun e' he' => (h e' he').1⟩,
          fun h e' he' => ⟨h.2 e' he', h.1 e' he'⟩⟩
      rw [hfiles, hbefore, List.map_cons, List.nodup_cons, List.forall_mem_cons]
      tauto

theorem exists_eq_map_entry_and_iff {P : List Container.Entry → Prop} :
    (∃ es', es.map Container.Item.entry = es'.map .entry ∧ P es') ↔ P es :=
  ⟨fun ⟨_, h, hp⟩ => eq_of_map_entry h ▸ hp, fun hp => ⟨es, rfl, hp⟩⟩

/-- **When the migration of entries succeeds**, whatever their order. -/
theorem exists_migrateItems_eq_ok_iff_of_manifestCount (hone : manifestCount (es.map .entry) ≤ 1) :
    (∃ result, (migrateItems nested t mode label (es.map .entry)).result = .ok result) ↔
      Plannable nested t label [] es ∧ ∀ e ∈ es, kindOf e = .manifest →
        ∀ cause, Manifest.parse? e.data = .error cause → ¬ Touched nested t label es := by
  rw [exists_migrateItems_eq_ok_iff, exists_eq_map_entry_and_iff]
  refine and_congr_right fun hp => ?_
  rw [exists_verdict?_eq_ok_iff, touched_iff hp, Bool.not_eq_true]
  exact forall_find?_plansOfAll_iff hone (P := fun data => ∀ cause,
    Manifest.parse? data = .error cause → anyConverted (plansOfAll nested t label es) = false)

/-- **When a migration finds nothing to do**, whatever the order of the entries. -/
theorem migrateItems_eq_none_iff_of_manifestCount (hone : manifestCount (es.map .entry) ≤ 1) :
    (migrateItems nested t mode label (es.map .entry)).result = .ok none ↔
      Plannable nested t label [] es ∧ ¬ Touched nested t label es ∧
        ∀ e ∈ es, kindOf e = .manifest →
          ∀ m, Manifest.parse? e.data = .ok m → m.convertValues? t = none := by
  rw [migrateItems_eq_none_iff, exists_eq_map_entry_and_iff]
  refine and_congr_right fun hp => ?_
  rw [verdict?_eq_unchanged_iff, touched_iff hp, Bool.not_eq_true]
  exact and_congr_right fun _ => forall_find?_plansOfAll_iff hone (P := fun data => ∀ m,
    Manifest.parse? data = .ok m → m.convertValues? t = none)

/-! ## Permutations -/

theorem touched_perm (h : es.Perm es') : Touched nested t label es ↔ Touched nested t label es' := by
  simp only [Touched, h.mem_iff]

theorem plannable_perm (h : es.Perm es') :
    Plannable nested t label [] es ↔ Plannable nested t label [] es' := by
  have hfiles : (files es).Perm (files es') := h.filter _
  rw [plannable_iff_nodup, plannable_iff_nodup, (hfiles.map t.targetOf).nodup_iff]
  simp only [h.mem_iff, hfiles.mem_iff]

/-- What the manifest is repaired for does not depend on the order of the entries. -/
theorem repairFor_perm (h : es.Perm es') :
    repairFor nested t label es = repairFor nested t label es' := by
  have hany : ∀ p : Container.Entry → Bool, es.any p = es'.any p := fun p => by
    rw [Bool.eq_iff_iff, List.any_eq_true, List.any_eq_true]
    simp only [h.mem_iff]
  have hrenamed : (repairFor nested t label es).renamed = (repairFor nested t label es').renamed := by
    funext name
    refine Option.ext fun new => ?_
    simp only [renamed_repairFor_eq_some_iff, h.mem_iff]
  calc repairFor nested t label es
    _ = ⟨fun name => es.any fun e => (newData? nested t label e).isSome && e.name == name,
          (repairFor nested t label es).renamed, es.any fun e => kindOf e == .signature⟩ := rfl
    _ = repairFor nested t label es' := by simp only [hany, hrenamed]; rfl

/-- An entry is written in the same way between other entries. -/
theorem WrittenAs.unique {before after before' after' : List Container.Entry} {w w' : Container.Entry}
    (h : WrittenAs nested t label before e after w) (h' : WrittenAs nested t label before' e after' w')
    (hperm : (before ++ e :: after).Perm (before' ++ e :: after'))
    (hone : manifestCount ((before ++ e :: after).map .entry) ≤ 1) : w = w' := by
  have hone' : manifestCount ((before' ++ e :: after').map .entry) ≤ 1 :=
    manifestCount_le_of_perm (hperm.map _) hone
  have hdata : w.data = w'.data := by
    by_cases hk : kindOf e = .manifest
    · obtain ⟨m, hm, hw⟩ := h.manifest ((isPicked_iff_of_manifestCount hone).2 hk)
      obtain ⟨m', hm', hw'⟩ := h'.manifest ((isPicked_iff_of_manifestCount hone').2 hk)
      obtain rfl := Except.ok.inj (hm.symm.trans hm')
      rw [hw, hw', repairedData, repairedData, repairFor_perm hperm]
    · obtain ⟨data, hc, hw⟩ := h.data fun hp => hk hp.1
      obtain ⟨data', hc', hw'⟩ := h'.data fun hp => hk hp.1
      obtain rfl := Except.ok.inj (hc.symm.trans hc')
      rw [hw, hw']
  obtain ⟨name, method, mode, data⟩ := w
  obtain ⟨name', method', mode', data'⟩ := w'
  obtain ⟨rfl, rfl, rfl, -, -⟩ := h
  obtain ⟨rfl, rfl, rfl, -, -⟩ := h'
  obtain rfl := hdata
  rfl

/-! ## What is written -/

section
variable {ws ws' : List Container.Entry} {w : Container.Entry}

/-- A file that is written is written whatever the order of the entries. -/
theorem Writes.mem_of_perm (h : Writes nested t label [] es ws) (h' : Writes nested t label [] es' ws')
    (hperm : es.Perm es') (hone : manifestCount (es.map .entry) ≤ 1) (hw : w ∈ ws)
    (hfile : EntryName.isDirectory w.name = false) : w ∈ ws' := by
  obtain ⟨ws₁, ws₂, rfl⟩ := List.append_of_mem hw
  obtain ⟨before, e, after, rfl, hleft, hwritten, -⟩ := h.exists_of_append
  have he : e ∈ es' := hperm.mem_iff.1 (by simp)
  obtain ⟨before', after', rfl⟩ := List.append_of_mem he
  have hleft' : ¬ IsLeftOut t ([] ++ before') e := by
    rintro (hs | ⟨hd, -⟩)
    · exact hleft (.inl hs)
    · rw [kindOf_eq_directory_iff_targetOf (t := t), ← hwritten.name] at hd
      rw [EntryName.isDirectory, hd] at hfile
      cases hfile
  obtain ⟨w', hmem, hwritten'⟩ := h'.leftOut_or_written.resolve_left hleft'
  rwa [hwritten.unique hwritten' hperm hone]

/-- For every directory one is written under its new name. -/
theorem Writes.mem_names_of_directory (h : Writes nested t label [] es ws) (he : e ∈ es)
    (hd : kindOf e = .directory) : t.targetOf e ∈ ws.map Container.Entry.name := by
  -- the first entry that comes to have the name is written
  have hmem : t.targetOf e ∈ es.map t.targetOf := List.mem_map_of_mem he
  obtain ⟨names, rest, hsplit, hfirst⟩ := List.eq_append_cons_of_mem hmem
  obtain ⟨before, rest', rfl, rfl, hrest⟩ := List.map_eq_append_iff.1 hsplit
  obtain ⟨e', after, rfl, htarget, -⟩ := List.map_eq_cons_iff.1 hrest
  have hleft : ¬ IsLeftOut t ([] ++ before) e' := by
    rintro (hs | ⟨-, hm⟩)
    · have hd' : kindOf e' = .directory := by
        rw [kindOf_eq_directory_iff_targetOf (t := t), htarget]
        exact kindOf_eq_directory_iff_targetOf.1 hd
      rw [hd'] at hs
      cases hs
    · exact hfirst (htarget ▸ hm)
  obtain ⟨w, hw, hwritten⟩ := h.leftOut_or_written.resolve_left hleft
  exact List.mem_map.2 ⟨w, hw, hwritten.name.trans htarget⟩

/-- The entries that are files by their names. -/
def writtenFiles (ws : List Container.Entry) : List Container.Entry :=
  ws.filter fun w => !EntryName.isDirectory w.name

/-- The names of the directories. -/
def directoryNames (ws : List Container.Entry) : List Bytes :=
  (ws.map Container.Entry.name).filter EntryName.isDirectory

theorem Writes.writtenFiles_perm (h : Writes nested t label [] es ws)
    (h' : Writes nested t label [] es' ws') (hperm : es.Perm es')
    (hone : manifestCount (es.map .entry) ≤ 1) (hn : (ws.map Container.Entry.name).Nodup)
    (hn' : (ws'.map Container.Entry.name).Nodup) : (writtenFiles ws).Perm (writtenFiles ws') := by
  have hone' : manifestCount (es'.map .entry) ≤ 1 := manifestCount_le_of_perm (hperm.map _) hone
  refine (List.perm_ext_iff_of_nodup (hn.of_map.filter _) (hn'.of_map.filter _)).2 fun w => ?_
  rw [List.mem_filter, List.mem_filter]
  refine and_congr_left fun hfile => ?_
  rw [Bool.not_eq_true'] at hfile
  exact ⟨fun hw => h.mem_of_perm h' hperm hone hw hfile,
    fun hw => h'.mem_of_perm h hperm.symm hone' hw hfile⟩

theorem Writes.directoryNames_subset (h : Writes nested t label [] es ws)
    (h' : Writes nested t label [] es' ws') (hperm : es.Perm es') :
    directoryNames ws ⊆ directoryNames ws' := by
  intro name hname
  obtain ⟨hname, hd⟩ := List.mem_filter.1 hname
  obtain ⟨w, hw, rfl⟩ := List.mem_map.1 hname
  obtain ⟨ws₁, ws₂, rfl⟩ := List.append_of_mem hw
  obtain ⟨before, e, after, rfl, -, hwritten, -⟩ := h.exists_of_append
  have hk : kindOf e = .directory := by
    rw [kindOf_eq_directory_iff_targetOf (t := t), ← hwritten.name]
    exact beq_iff_eq.1 hd
  refine List.mem_filter.2 ⟨?_, hd⟩
  rw [hwritten.name]
  exact h'.mem_names_of_directory (hperm.mem_iff.1 (by simp)) hk

theorem Writes.directoryNames_perm (h : Writes nested t label [] es ws)
    (h' : Writes nested t label [] es' ws') (hperm : es.Perm es')
    (hn : (ws.map Container.Entry.name).Nodup) (hn' : (ws'.map Container.Entry.name).Nodup) :
    (directoryNames ws).Perm (directoryNames ws') :=
  (List.perm_ext_iff_of_nodup (hn.filter _) (hn'.filter _)).2 fun _ =>
    ⟨fun hname => h.directoryNames_subset h' hperm hname,
      fun hname => h'.directoryNames_subset h hperm.symm hname⟩

end

/-! ## Whole archives -/

section
variable {items items' : List Container.Item} {mode' : BufferMode}

theorem perm_of_map_entry (h : (es.map Container.Item.entry).Perm (es'.map .entry)) : es.Perm es' :=
  (List.map_perm_map_iff fun _ _ h => Container.Item.entry.inj h).1 h

theorem exists_map_entry_of_perm (h : (es.map .entry).Perm items) :
    ∃ es', items = es'.map .entry ∧ es.Perm es' := by
  obtain ⟨es', rfl⟩ := exists_eq_map_entry fun item hitem => by
    obtain ⟨e, -, rfl⟩ := List.mem_map.1 (h.mem_iff.2 hitem)
    exact ⟨e, rfl⟩
  exact ⟨es', rfl, perm_of_map_entry h⟩

theorem exists_migrateItems_eq_ok_of_perm (hperm : items.Perm items') (hone : manifestCount items ≤ 1)
    (h : ∃ result, (migrateItems nested t mode label items).result = .ok result) :
    ∃ result, (migrateItems nested t mode' label items').result = .ok result := by
  obtain ⟨es, rfl, -⟩ := exists_migrateItems_eq_ok_iff.1 h
  obtain ⟨es', rfl, hes⟩ := exists_map_entry_of_perm hperm
  rw [exists_migrateItems_eq_ok_iff_of_manifestCount hone] at h
  rw [exists_migrateItems_eq_ok_iff_of_manifestCount (manifestCount_le_of_perm hperm hone)]
  simpa only [plannable_perm hes, hes.mem_iff, touched_perm hes] using h

theorem migrateItems_eq_none_of_perm (hperm : items.Perm items') (hone : manifestCount items ≤ 1)
    (h : (migrateItems nested t mode label items).result = .ok none) :
    (migrateItems nested t mode' label items').result = .ok none := by
  obtain ⟨es, rfl, -⟩ := migrateItems_eq_none_iff.1 h
  obtain ⟨es', rfl, hes⟩ := exists_map_entry_of_perm hperm
  rw [migrateItems_eq_none_iff_of_manifestCount hone] at h
  rw [migrateItems_eq_none_iff_of_manifestCount (manifestCount_le_of_perm hperm hone)]
  simpa only [plannable_perm hes, hes.mem_iff, touched_perm hes] using h

/-- **The order of the entries of an archive does not matter** for whether its migration fails, for
whether it changes, and for the files and directories of the migrated archive. They come in the order
of the entries. Archives may be in one another to any depth. -/
theorem migrate_perm {format : Container.Format} {data data' : Bytes} {depth : Nat}
    (hread : format.read? data = some items) (hread' : format.read? data' = some items')
    (hperm : items.Perm items') (hone : manifestCount items ≤ 1) :
    let nested := migrateWithin? format t depth
    let result := (migrateWith format nested t mode label data).result
    let result' := (migrateWith format nested t mode' label data').result
    ((∃ cause, result = .error cause) ↔ ∃ cause, result' = .error cause) ∧
      (result = .ok none ↔ result' = .ok none) ∧
      ∀ out, result = .ok (some out) → ∃ out' es es' written written',
        result' = .ok (some out') ∧ items = es.map .entry ∧ items' = es'.map .entry ∧
        out = format.write written ∧ out' = format.write written' ∧
        (format.Faithful (Writable format t data) → format.read? out = some (written.map .entry)) ∧
        (format.Faithful (Writable format t data') →
          format.read? out' = some (written'.map .entry)) ∧
        (writtenFiles written).Perm (writtenFiles written') ∧
        (directoryNames written).Perm (directoryNames written') ∧
        Writes nested t label [] es written ∧ Writes nested t label [] es' written' := by
  intro nested result result'
  have hone' : manifestCount items' ≤ 1 := manifestCount_le_of_perm hperm hone
  have herror : (∃ cause, result = .error cause) ↔ ∃ cause, result' = .error cause := by
    simp only [result, result', migrateWith_result, hread, hread', exists_map_eq_error_iff,
      exists_error_iff_not_exists_ok]
    exact not_congr ⟨exists_migrateItems_eq_ok_of_perm hperm hone,
      exists_migrateItems_eq_ok_of_perm hperm.symm hone'⟩
  have hnone : result = .ok none ↔ result' = .ok none := by
    simp only [result, result', migrateWith_eq_none_iff, hread, hread', Option.some.injEq,
      exists_eq_left']
    exact ⟨migrateItems_eq_none_of_perm hperm hone, migrateItems_eq_none_of_perm hperm.symm hone'⟩
  refine ⟨herror, hnone, fun out hout => ?_⟩
  obtain ⟨out', hout'⟩ : ∃ out', result' = .ok (some out') := by
    cases hr : result' with
    | error cause =>
      obtain ⟨cause', hcause⟩ := herror.2 ⟨cause, hr⟩
      rw [hout] at hcause
      cases hcause
    | ok changed =>
      cases changed with
      | none =>
        rw [hnone.2 hr] at hout
        cases hout
      | some out' => exact ⟨out', rfl⟩
  obtain ⟨es, written, hes, rfl, hp, hw⟩ := exists_writes_of_migrateWith hout
  obtain ⟨es', written', hes', rfl, hp', hw'⟩ := exists_writes_of_migrateWith hout'
  obtain rfl := Option.some.inj (hread.symm.trans hes)
  obtain rfl := Option.some.inj (hread'.symm.trans hes')
  have hperm' : es.Perm es' := perm_of_map_entry hperm
  have hnodup := (hw.nodup hp).1
  have hnodup' := (hw'.nodup hp').1
  exact ⟨_, es, es', written, written', hout', rfl, rfl, rfl, rfl,
    hw.read?_write hp hread, hw'.read?_write hp' hread',
    hw.writtenFiles_perm hw' hperm' hone hnodup hnodup',
    hw.directoryNames_perm hw' hperm' hnodup hnodup', hw, hw'⟩

/-- Of two directories with one new name the first one is kept, and the manifest stands where it stood. -/
theorem migrate_perm_jar :
    let about (name : Bytes) : Manifest := ⟨[], [[⟨bytes "Name", name⟩, ⟨bytes "A", bytes "1"⟩]]⟩
    let entry (name data : Bytes) : Container.Entry := ⟨name, .stored, none, data⟩
    let migrated (name data : Bytes) : Container.Entry := ⟨name, .stored, some 0o100644, data⟩
    let directories := [entry (bytes "javax/el/") [], entry (bytes "jakarta/el/") []]
    let manifest := entry (bytes "META-INF/MANIFEST.MF") (about (bytes "javax/el/A.txt")).bytes
    let file := entry (bytes "javax/el/A.txt") (bytes "javax.el.A")
    let es := directories ++ [manifest, file]
    let es' := [file, manifest] ++ directories.reverse
    let out := Container.Zip.write [migrated (bytes "jakarta/el/") [],
      migrated (bytes "META-INF/MANIFEST.MF") (about (bytes "jakarta/el/A.txt")).bytes,
      migrated (bytes "jakarta/el/A.txt") (bytes "jakarta.el.A")]
    let result (es : List Container.Entry) := (migrate Container.zip Profile.tomcat.table .inMemory
      (bytes "c.jar") (Container.Zip.write es)).result
    result es = .ok (some out) ∧ ∃ out' written written', result es' = .ok (some out') ∧
      out = Container.zip.write written ∧ out' = Container.zip.write written' ∧
      (writtenFiles written).Perm (writtenFiles written') ∧
      (directoryNames written).Perm (directoryNames written') := by
  intro about entry migrated directories manifest file es es' out result
  have h : result es = .ok (some out) := by
    simp only [result]
    rw [Profile.table_eq_orderedTable]
    decide +kernel
  have hread : Container.zip.read? (Container.Zip.write es) = some (es.map .entry) := by decide +kernel
  have hread' : Container.zip.read? (Container.Zip.write es') = some (es'.map .entry) := by
    decide +kernel
  have hperm : (es.map Container.Item.entry).Perm (es'.map .entry) := by decide +kernel
  have hone : manifestCount (es.map .entry) ≤ 1 := by decide +kernel
  obtain ⟨out', -, -, written, written', h', -, -, hout, hout', -, -, hfiles, hdirectories, -⟩ :=
    (migrate_perm hread hread' hperm hone).2.2 out h
  exact ⟨h, out', written, written', h', hout, hout', hfiles, hdirectories⟩

end

end PackageMigration.Archive
