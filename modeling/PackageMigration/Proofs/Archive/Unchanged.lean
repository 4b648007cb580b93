import PackageMigration.Proofs.Archive.Completeness
/-
  Archives in which a migration finds nothing to do.

  * `Unchanged`: the entries have nothing to convert and no new names.

  Main statements: `verdict?_eq_unchanged_iff`, `migrateItems_eq_none_iff_unchanged`.
-/
namespace PackageMigration.Archive

open Migration (Error)

/-- Nothing is to be done about the entries: no content is converted, no name changes, no name but
those of directories is used again, and the manifest that is picked has no value to convert, if it
can be read. -/
structure Unchanged (nested : Nested) (t : Table) (label : Bytes) (es : List Container.Entry) :
    Prop where
  data : ∀ e ∈ es, converted? nested t label e = .ok none
  target : ∀ e ∈ es, t.targetOf e = e.name
  distinct : ∀ before e after, es = before ++ e :: after →
    e.name ∈ before.map Container.Entry.name → kindOf e = .directory
  manifest : ∀ before e after, es = before ++ e :: after → IsPicked e after →
    ∀ m, Manifest.parse? e.data = .ok m → m.convertValues? t = none

variable {nested : Nested} {t : Table} {label : Bytes} {es : List Container.Entry}

/-! ## Plans -/

theorem plannable_iff {before : List Container.Entry} :
    Plannable nested t label before es ↔
      (∀ e ∈ es, converted? nested t label e = .ok (newData? nested t label e)) ∧
        ∀ before' e after, es = before' ++ e :: after →
          t.targetOf e ∈ (before ++ before').map t.targetOf → kindOf e = .directory := by
  induction es generalizing before with
  | nil => exact ⟨fun _ => ⟨nofun, fun before' e after h => by simp at h⟩, fun _ => .nil⟩
  | cons e es ih =>
    constructor
    · rintro (_ | ⟨hc, hd, hp⟩)
      obtain ⟨hdata, hdirs⟩ := ih.1 hp
      refine ⟨List.forall_mem_cons.2 ⟨hc, hdata⟩, fun before' e' after h => ?_⟩
      cases before' with
      | nil =>
        obtain ⟨rfl, -⟩ := List.cons.inj h
        rwa [List.append_nil]
      | cons e₁ before' =>
        obtain ⟨rfl, hes⟩ := List.cons.inj h
        simpa using hdirs before' e' after hes
    · rintro ⟨hdata, hdirs⟩
      obtain ⟨hc, hdata⟩ := List.forall_mem_cons.1 hdata
      refine .cons hc (by simpa using hdirs [] e es rfl) (ih.2 ⟨hdata, fun before' e' after h => ?_⟩)
      simpa using hdirs (e :: before') e' after (by rw [h]; rfl)

/-- Among entries of which one is a manifest, one is picked. -/
theorem exists_isPicked (h : ∃ e ∈ es, kindOf e = .manifest) :
    ∃ before e after, es = before ++ e :: after ∧ IsPicked e after := by
  induction es with
  | nil => simp at h
  | cons e es ih =>
    by_cases hes : ∃ e ∈ es, kindOf e = .manifest
    · obtain ⟨before, e', after, rfl, hp⟩ := ih hes
      exact ⟨e :: before, e', after, rfl, hp⟩
    · obtain ⟨e', he', hk⟩ := h
      rcases List.mem_cons.1 he' with rfl | he'
      · exact ⟨[], e', es, rfl, hk, fun e' he' hk => hes ⟨e', he', hk⟩⟩
      · exact absurd ⟨e', he', hk⟩ hes

theorem find?_plansOfAll_eq_some_iff {p : Plan} :
    ((plansOfAll nested t label es).find? fun p => p.kind == .manifest) = some p ↔
      ∃ before e after, es = before ++ e :: after ∧ IsPicked e after ∧
        p = planOf nested t label before e := by
  constructor
  · intro h
    have hkind : ∃ e ∈ es, kindOf e = .manifest := by
      obtain ⟨before, e, after, rfl, rfl⟩ :=
        mem_plansOf (List.mem_reverse.1 (List.mem_of_find?_eq_some h))
      have hp := List.find?_some h
      exact ⟨e, by simp, eq_of_beq hp⟩
    obtain ⟨before, e, after, rfl, hp⟩ := exists_isPicked hkind
    exact ⟨before, e, after, rfl, hp, Option.some.inj (h.symm.trans (find?_plansOfAll hp))⟩
  · rintro ⟨before, e, after, rfl, hp, rfl⟩
    exact find?_plansOfAll hp

theorem anyConverted_plansOfAll_eq_false_iff (h : Plannable nested t label [] es) :
    anyConverted (plansOfAll nested t label es) = false ↔
      ∀ e ∈ es, newData? nested t label e = none ∧ t.targetOf e = e.name := by
  have hany : anyConverted (plansOfAll nested t label es) =
      es.any fun e => (newData? nested t label e).isSome || t.targetOf e != e.name := by
    rw [anyConverted, plansOfAll, List.any_reverse]
    exact any_plansOf h fun hd => by rw [isConverted_planOf hd]; rfl
  rw [hany]
  simp only [List.any_eq_false, Bool.or_eq_true, not_or, Bool.not_eq_true,
    Option.isSome_eq_false_iff, Option.isNone_iff_eq_none, bne_eq_false_iff_eq]

/-! ## Unchanged archives -/

theorem verdict?_eq_unchanged_iff {plans : List Plan} :
    verdict? t label plans = .ok .unchanged ↔ anyConverted plans = false ∧
      ∀ p, (plans.find? fun p => p.kind == .manifest) = some p →
        ∀ m, Manifest.parse? p.entry.data = .ok m → m.convertValues? t = none := by
  unfold verdict?
  cases plans.find? fun p => p.kind == .manifest with
  | none => cases anyConverted plans <;> simp
  | some p =>
    cases hm : Manifest.parse? p.entry.data with
    | error => cases anyConverted plans <;> simp [hm]
    | ok m =>
      cases hc : m.convertValues? t with
      | some => simp [hm, hc]
      | none => cases anyConverted plans <;> simp [hm, hc]

theorem Unchanged.plannable (h : Unchanged nested t label es) : Plannable nested t label [] es := by
  refine plannable_iff.2 ⟨fun e he => ?_, ?_⟩
  · rw [(converted?_eq_ok_iff.1 (h.data e he)).2, h.data e he]
  · rintro before e after rfl hmem
    have htarget : before.map t.targetOf = before.map Container.Entry.name :=
      List.map_congr_left fun e' he' => h.target e' (List.mem_append_left _ he')
    refine h.distinct before e after rfl ?_
    rwa [List.nil_append, htarget, h.target e (by simp)] at hmem

/-- **When a migration finds nothing to do.** -/
theorem migrateItems_eq_none_iff_unchanged {mode : BufferMode} {items : List Container.Item} :
    (migrateItems nested t mode label items).result = .ok none ↔
      ∃ es, items = es.map .entry ∧ Unchanged nested t label es := by
  rw [migrateItems_eq_none_iff]
  refine exists_congr fun es => and_congr_right fun _ => ?_
  rw [verdict?_eq_unchanged_iff]
  simp only [find?_plansOfAll_eq_some_iff]
  constructor
  · rintro ⟨hp, hany, hmanifest⟩
    obtain ⟨hdata, hdirs⟩ := plannable_iff.1 hp
    rw [anyConverted_plansOfAll_eq_false_iff hp] at hany
    refine ⟨fun e he => ?_, fun e he => (hany e he).2, ?_, ?_⟩
    · rw [hdata e he, (hany e he).1]
    · rintro before e after rfl hmem
      have htarget : before.map t.targetOf = before.map Container.Entry.name :=
        List.map_congr_left fun e' he' => (hany e' (List.mem_append_left _ he')).2
      refine hdirs before e after rfl ?_
      rwa [List.nil_append, htarget, (hany e (by simp)).2]
    · rintro before e after rfl hpicked m hm
      exact hmanifest _ ⟨before, e, after, rfl, hpicked, rfl⟩ m hm
  · intro h
    refine ⟨h.plannable, (anyConverted_plansOfAll_eq_false_iff h.plannable).2 fun e he =>
      ⟨(converted?_eq_ok_iff.1 (h.data e he)).2, h.target e he⟩, ?_⟩
    rintro p ⟨before, e, after, he, hpicked, rfl⟩ m hm
    exact h.manifest before e after he hpicked m hm

theorem migrateWith_eq_none_iff_unchanged :
    (migrateWith format nested t mode label data).result = .ok none ↔
      ∃ es, format.read? data = some (es.map .entry) ∧ Unchanged nested t label es := by
  rw [migrateWith_eq_none_iff]
  simp only [migrateItems_eq_none_iff_unchanged]
  constructor
  · rintro ⟨_, hread, es, rfl, h⟩
    exact ⟨es, hread, h⟩
  · rintro ⟨es, hread, h⟩
    exact ⟨_, hread, es, rfl, h⟩

end PackageMigration.Archive
