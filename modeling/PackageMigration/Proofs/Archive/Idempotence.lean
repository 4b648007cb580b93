import PackageMigration.Proofs.Archive.Label
import PackageMigration.Proofs.Archive.Route
import PackageMigration.Proofs.Archive.Target
import PackageMigration.Proofs.Archive.Unchanged
import PackageMigration.Proofs.Container.Completed
import PackageMigration.Proofs.Entry.Kind
import PackageMigration.Proofs.Mapping.Order
/-
  An archive is migrated once: in a migrated archive nothing is to be done.

  * `MigratesOnce`: the same about the archives in an archive; `NestedIn`: which these are.

  Main statements: `unchanged_of_writes`, `migratesOnce_migrateWithin?`, `migrate_idempotent`,
  `ne_nil_of_migrateItems` (a migrated archive has an entry).
-/
namespace PackageMigration.Archive

open Migration (Error)
open Profile (oldRoot newRoot)

/-- What comes of an archive in archives does not depend on what it is called, a migrated one does not
look like a class file, and the given ones are migrated once. -/
structure MigratesOnce (nested : Nested) (archives : Set Bytes) : Prop where
  labels : Extends nested nested
  notClass : ∀ {label data out}, nested label data = .ok (some out) → looksLikeClass out = false
  migrated : ∀ {label data out}, data ∈ archives → nested label data = .ok (some out) →
    ∀ label', nested label' out = .ok none

/-- The archives among entries are some of these. -/
def NestedIn (archives : Set Bytes) (es : List Container.Entry) : Prop :=
  ∀ e ∈ es, kindOf e = .nestedArchive → e.data ∈ archives

section
variable {nested : Nested} {archives : Set Bytes} {p : Profile} {label : Bytes}
variable {before es after ws : List Container.Entry} {e w : Container.Entry}

/-! ## Contents -/

/-- What was converted is not converted again. -/
theorem convertPayload?_of_converted (hn : MigratesOnce nested archives) {kind : EntryKind}
    {payload out : Bytes} (harchive : kind = .nestedArchive → payload ∈ archives)
    (h : convertPayload? nested p.table kind label payload = .ok (some out))
    (label' : Bytes) : convertPayload? nested p.table kind label' out = .ok none := by
  have htext : p.table.convert? payload = some out → p.table.convert? out = none := by
    intro hc
    have hsettled := p.isSettled_table.convert?_convert payload
    rwa [Table.convert_of_convert? hc] at hsettled
  cases kind with
  | classBinary =>
    exact mapError_eq_ok_iff.2 (p.isSettled_table.convertClass?_convertClass? (mapError_eq_ok_iff.1 h))
  | nestedArchive => exact hn.migrated (harchive rfl) h label'
  | sourceText => exact congrArg Except.ok (htext (Except.ok.inj h))
  | serviceRegistration => exact congrArg Except.ok (htext (Except.ok.inj h))
  | directory => cases h
  | manifest => cases h
  | signature => cases h
  | passthrough => cases h

/-- A converted content looks like a class file if it did before. -/
theorem looksLikeClass_of_converted (hn : MigratesOnce nested archives) {kind : EntryKind}
    {payload out : Bytes} (hkind : kind = .nestedArchive → looksLikeClass payload = false)
    (h : convertPayload? nested p.table kind label payload = .ok (some out)) :
    looksLikeClass out = looksLikeClass payload := by
  by_cases hk : kind = .nestedArchive
  · subst hk
    rw [hn.notClass h, hkind rfl]
  · exact looksLikeClass_convertPayload? hk h

/-! ## Names and kinds -/

/-- An entry that moves has `jakarta` for some `javax` in its name. -/
theorem moved_targetOf (p : Profile) (e : Container.Entry) :
    Moved oldRoot newRoot e.name (p.table.targetOf e) :=
  p.moved_getD_renamed e.name e.data

/-- An entry that moved stays. -/
theorem targetOf_eq_name (hk : kindOf w = kindOf e) (hw : w.name = p.table.targetOf e) :
    p.table.targetOf w = w.name := by
  have hsame : IsOwn w ↔ IsOwn e := by rw [IsOwn, IsOwn, hk]
  by_cases hown : IsOwn e
  · exact targetOf_of_isOwn (hsame.2 hown)
  · rw [targetOf_of_not_isOwn hown] at hw
    rw [targetOf_of_not_isOwn (mt hsame.1 hown), hw, p.renameEntry?_getD, Option.getD_none]

theorem looksLikeClass_of_kindOf (h : kindOf e ≠ .classBinary) (hd : kindOf e ≠ .directory) :
    looksLikeClass e.data = false := by
  unfold kindOf EntryKind.of at h hd
  split at hd
  · exact absurd rfl hd
  next hdir =>
    rw [if_neg hdir] at h
    split at h
    · exact absurd rfl h
    next hclass =>
      rw [Bool.or_eq_true, not_or] at hclass
      simpa using hclass.2

/-- A repaired manifest is text, which never looks like a class file. -/
theorem looksLikeClass_repairedData {data : Bytes} {m : Manifest} (hm : Manifest.parse? data = .ok m) :
    looksLikeClass (repairedData nested p.table label es m) = false :=
  looksLikeClass_of_isText (isProper_repaired hm).isText_bytes

theorem WrittenAs.kindOf_eq (hn : MigratesOnce nested archives)
    (h : WrittenAs nested p.table label before e after w) : kindOf w = kindOf e := by
  refine EntryKind.of_moved (.inl rfl) (.inr rfl) (h.name ▸ moved_targetOf p e) ?_
  by_cases hp : IsPicked e after
  · obtain ⟨m, hm, hdata⟩ := h.manifest hp
    rw [hdata, looksLikeClass_repairedData hm,
      looksLikeClass_of_kindOf (by simp [hp.1]) (by simp [hp.1])]
  · obtain ⟨data, hc, hdata⟩ := h.data hp
    cases data with
    | none => rw [hdata, Option.getD_none]
    | some data =>
      rw [hdata, Option.getD_some, looksLikeClass_of_converted hn (fun hk => ?_) hc]
      exact looksLikeClass_of_kindOf (by simp [hk]) (by simp [hk])

theorem WrittenAs.converted?_eq_none (hn : MigratesOnce nested archives)
    (harchive : kindOf e = .nestedArchive → e.data ∈ archives)
    (h : WrittenAs nested p.table label before e after w) (label' : Bytes) :
    converted? nested p.table label' w = .ok none := by
  unfold converted?
  rw [h.kindOf_eq hn]
  by_cases hp : IsPicked e after
  · rw [hp.1]
    rfl
  · obtain ⟨data, hc, hdata⟩ := h.data hp
    cases data with
    | none => rw [hdata]; exact convertPayload?_extends hn.labels hc _
    | some data => rw [hdata]; exact convertPayload?_of_converted hn harchive hc _

/-- The mark of a migration holds no mapped name. -/
theorem convert?_append_version (p : Profile) {s : Bytes} (h : p.table.convert? s = none) :
    p.table.convert? (s ++ Manifest.marker ++ bytes version) = none := by
  obtain ⟨b, rest, hmark, hb, hsep, hrest⟩ : ∃ b rest, Manifest.marker ++ bytes version = b :: rest ∧
      Name.isIdent b = false ∧ isSeparator b = false ∧ ¬ oldRoot <:+: rest :=
    ⟨0x2D, bytes "migrated-0.1.0", by decide, by decide, by decide, by decide⟩
  rw [List.append_assoc, hmark]
  exact (Table.convert?_append_cons_eq_none_iff hb hsep).2 ⟨h, p.convert?_eq_none_of_not_isInfix hrest⟩

/-- **In what a migration writes nothing is to be done.** -/
theorem unchanged_of_writes (hn : MigratesOnce nested archives) (hes : NestedIn archives es)
    (hp : Plannable nested p.table label [] es) (h : Writes nested p.table label [] es ws)
    (label' : Bytes) : Unchanged nested p.table label' ws := by
  have hwritten : ∀ w ∈ ws, ∃ before, ∃ e ∈ es, ∃ after,
      WrittenAs nested p.table label before e after w := by
    intro w hw
    obtain ⟨ws₁, ws₂, rfl⟩ := List.append_of_mem hw
    obtain ⟨es₁, e, es₂, rfl, -, hw, -⟩ := h.exists_of_append
    exact ⟨_, e, by simp, es₂, hw⟩
  refine ⟨fun w hw => ?_, fun w hw => ?_, ?_, ?_⟩
  · obtain ⟨_, e, he, _, hw⟩ := hwritten w hw
    exact hw.converted?_eq_none hn (hes e he) label'
  · obtain ⟨_, e, -, _, hw⟩ := hwritten w hw
    exact targetOf_eq_name (hw.kindOf_eq hn) hw.name
  · rintro ws₁ w ws₂ rfl hmem
    have hnodup := (h.nodup hp).1
    rw [List.map_append, List.map_cons, List.nodup_middle, List.nodup_cons] at hnodup
    exact absurd (List.mem_append_left _ hmem) hnodup.1
  · rintro ws₁ w ws₂ rfl hpicked m hm
    obtain ⟨es₁, e, es₂, rfl, -, hw, hrest⟩ := h.exists_of_append
    have hk := hw.kindOf_eq hn
    -- a manifest behind the entry would be one behind what is written for it
    have hpicked' : IsPicked e es₂ := by
      refine ⟨hk ▸ hpicked.1, fun e' he' hk' => ?_⟩
      obtain ⟨_, _, rfl⟩ := List.append_of_mem he'
      obtain ⟨w', hw', hwritten'⟩ := hrest.leftOut_or_written.resolve_left (not_isLeftOut hk')
      exact hpicked.2 w' hw' ((hwritten'.kindOf_eq hn).trans hk')
    obtain ⟨m₀, hm₀, hdata⟩ := hw.manifest hpicked'
    rw [hdata] at hm
    exact Manifest.convertValues?_eq_none_of_repaired hm₀ reworded_of_renamed isLine_version
      (convert?_append_version p) hm

/-! ## Archives -/

/-- Behind signatures, nothing is written for signatures alone. -/
theorem Writes.kindOf_eq_of_nil {t : Table} (h : Writes nested t label before es [])
    (hbefore : ∀ e ∈ before, kindOf e = .signature) : ∀ e ∈ es, kindOf e = .signature := by
  generalize hws : ([] : List Container.Entry) = ws at h
  induction h with
  | nil => exact nofun
  | written => cases hws
  | @leftOut before es ws e hl _ ih =>
    have hsignature : kindOf e = .signature := by
      rcases hl with hl | ⟨hdirectory, htarget⟩
      · exact hl
      · obtain ⟨e', he', htarget⟩ := List.mem_map.1 htarget
        have hdirectory' : kindOf e' = .directory := by
          rw [kindOf_eq_directory_iff_targetOf, htarget]
          exact kindOf_eq_directory_iff_targetOf.1 hdirectory
        rw [hbefore e' he'] at hdirectory'
        cases hdirectory'
    refine List.forall_mem_cons.2 ⟨hsignature, ih ?_ hws⟩
    exact List.forall_mem_append.2 ⟨hbefore, List.forall_mem_singleton.2 hsignature⟩

/-- Signatures alone are no reason to write an archive. -/
theorem unchanged_of_signatures {t : Table} (hp : Plannable nested t label [] es)
    (h : ∀ e ∈ es, kindOf e = .signature) : Unchanged nested t label es := by
  have htarget : ∀ e ∈ es, t.targetOf e = e.name :=
    fun e he => targetOf_of_isOwn (.inr (h e he))
  refine ⟨fun e he => ?_, htarget, ?_, ?_⟩
  · rw [converted?, h e he]
    rfl
  · rintro before e after rfl hmem
    have hbefore : before.map t.targetOf = before.map Container.Entry.name :=
      List.map_congr_left fun e' he' => htarget e' (List.mem_append_left _ he')
    refine (plannable_iff.1 hp).2 before e after rfl ?_
    rwa [List.nil_append, hbefore, htarget e (by simp)]
  · rintro before e after rfl hpicked
    have hmanifest := hpicked.1
    rw [h e (by simp)] at hmanifest
    cases hmanifest

/-- A migrated archive has an entry. -/
theorem ne_nil_of_migrateItems {t : Table} {mode : BufferMode} {items : List Container.Item}
    (h : (migrateItems nested t mode label items).result = .ok (some ws)) : ws ≠ [] := by
  rintro rfl
  obtain ⟨es, rfl, hp, hw⟩ := writes_of_migrateItems h
  have hsignature := hw.kindOf_eq_of_nil nofun
  rw [migrateItems_eq_none_iff_unchanged.2 ⟨es, rfl, unchanged_of_signatures hp hsignature⟩] at h
  cases h

variable {format : Container.Format} {mode : BufferMode} {data out : Bytes}

/-- An archive is migrated once if the archives in it are, and what is written for it reads back. -/
theorem migrateWith_migrateWithin? {depth : Nat}
    (hn : MigratesOnce (migrateWithin? format p.table depth)
      {inner | format.Faithful (Writable format p.table inner)})
    (hf : format.Faithful (Writable format p.table data))
    (h : (migrateWith format (migrateWithin? format p.table depth) p.table mode label data).result =
      .ok (some out)) (mode' : BufferMode) (label' : Bytes) :
    (migrateWith format (migrateWithin? format p.table depth) p.table mode' label' out).result =
      .ok none := by
  obtain ⟨es, written, hread, rfl, hp, hw⟩ := exists_writes_of_migrateWith h
  have hes : NestedIn {inner | format.Faithful (Writable format p.table inner)} es :=
    fun e he hk => hf.mono fun ws => Writable.of_inner hread he hk
  exact migrateWith_eq_none_iff_unchanged.2
    ⟨written, hw.read?_write hp hread hf, unchanged_of_writes hn hes hp hw label'⟩

/-- What begins like a container does not look like a class file. -/
theorem looksLikeClass_of_signatureStart {s : Bytes} (h : Container.Zip.signatureStart <+: s) :
    looksLikeClass s = false := by
  obtain ⟨rest, rfl⟩ := h
  rw [Bool.eq_false_iff]
  intro hc
  obtain ⟨_, _, _, _, _, hs, -⟩ := looksLikeClass_iff.1 hc
  cases hs

/-- **Archives in archives are migrated once**, however deep they are in one another, if what is
written for them reads back. -/
theorem migratesOnce_migrateWithin?
    (hstart : ∀ entries, Container.Zip.signatureStart <+: format.write entries) (depth : Nat) :
    MigratesOnce (migrateWithin? format p.table depth)
      {inner | format.Faithful (Writable format p.table inner)} := by
  induction depth with
  | zero => exact ⟨nofun, nofun, fun _ => nofun⟩
  | succ depth ih =>
    refine ⟨migrateWithin?_extends (Nat.le_refl _), fun h => ?_,
      fun hf h => migrateWith_migrateWithin? ih hf h .inMemory⟩
    obtain ⟨items, written, -, -, rfl⟩ := migrateWith_eq_some_iff.1 h
    exact looksLikeClass_of_signatureStart (hstart written)

/-- **A migrated archive is not migrated again.** The format has to read back what the run writes and to
write containers that begin like containers; archives may be in one another to any depth. -/
theorem migrate_idempotent (hf : format.Faithful (Writable format p.table data))
    (hstart : ∀ entries, Container.Zip.signatureStart <+: format.write entries) {depth : Nat}
    (h : (migrateWith format (migrateWithin? format p.table depth) p.table mode label data).result =
      .ok (some out)) (mode' : BufferMode) (label' : Bytes) :
    (migrateWith format (migrateWithin? format p.table depth) p.table mode' label' out).result =
      .ok none :=
  migrateWith_migrateWithin? (migratesOnce_migrateWithin? hstart depth) hf h mode' label'

end

/-- An archive that holds another one with a text to convert. -/
theorem migrate_idempotent_nested :
    let inner (mode : Option Nat) (text : Bytes) : Bytes :=
      Container.Zip.write [⟨bytes "a.txt", .stored, mode, text⟩]
    let outer (mode : Option Nat) (archive : Bytes) : Bytes :=
      Container.Zip.write [⟨bytes "b.jar", .stored, mode, archive⟩]
    let data := outer none (inner none (bytes "javax.el.A"))
    let out := outer (some 0o100644) (inner (some 0o100644) (bytes "jakarta.el.A"))
    (migrate Container.zip.completed Profile.tomcat.table .spooled (bytes "c.jar") data).result =
        .ok (some out) ∧
      (migrate Container.zip.completed Profile.tomcat.table .inMemory (bytes "d.jar") out).result =
        .ok none := by
  intro inner outer data out
  have h : (migrate Container.zip.completed Profile.tomcat.table .spooled (bytes "c.jar") data).result =
      .ok (some out) := by
    rw [Profile.table_eq_orderedTable]
    decide +kernel
  exact ⟨h, migrate_idempotent (Container.faithful_completed _ _)
    Container.signatureStart_prefix_completed h .inMemory (bytes "d.jar")⟩

end PackageMigration.Archive
