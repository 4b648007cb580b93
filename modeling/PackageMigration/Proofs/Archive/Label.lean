import PackageMigration.Proofs.Archive.Plan
/-
  What becomes of an archive does not depend on what it is called, or on how deep others may be in it.

  * `Extends`: archives that one way of migrating succeeds for are migrated alike by another one.

  Main statements: `migrateWith_extends`, `migrateWithin?_extends`, `migrate_extends`.
-/
namespace PackageMigration.Archive

open Migration (Error)

/-- What comes of an archive in one way comes of it in the other, whatever it is called. -/
def Extends (nested nested' : Nested) : Prop :=
  ∀ label data result, nested label data = .ok result → ∀ label', nested' label' data = .ok result

section
variable {nested nested' : Nested} {t : Table} {label : Bytes}

theorem convertPayload?_extends (h : Extends nested nested') {kind : EntryKind} {payload : Bytes}
    {result : Option Bytes} (hc : convertPayload? nested t kind label payload = .ok result)
    (label' : Bytes) : convertPayload? nested' t kind label' payload = .ok result := by
  cases kind with
  | classBinary => exact mapError_eq_ok_iff.2 (mapError_eq_ok_iff.1 hc)
  | nestedArchive => exact h _ _ _ hc label'
  | sourceText => exact hc
  | serviceRegistration => exact hc
  | directory => exact hc
  | manifest => exact hc
  | signature => exact hc
  | passthrough => exact hc

/-- Entries that can be planned are planned alike. -/
theorem Plannable.extends (h : Extends nested nested') {before es : List Container.Entry}
    (hp : Plannable nested t label before es) (label' : Bytes) :
    Plannable nested' t label' before es ∧
      plansOf nested' t label' before es = plansOf nested t label before es := by
  induction hp with
  | nil => exact ⟨.nil, rfl⟩
  | @cons before es e hc hd hp ih =>
    have hc' : converted? nested' t label' e = .ok (newData? nested t label e) :=
      convertPayload?_extends h hc _
    have hdata : newData? nested' t label' e = newData? nested t label e := (converted?_eq_ok_iff.1 hc').2
    have hplan : planOf nested' t label' before e = planOf nested t label before e := by
      rw [planOf, planOf, hdata]
    exact ⟨.cons (by rw [hdata, hc']) hd ih.1, by rw [plansOf, plansOf, hplan, ih.2]⟩

theorem verdict?_of_label {plans : List Plan} {verdict : Verdict}
    (h : verdict? t label plans = .ok verdict) (label' : Bytes) : verdict? t label' plans = .ok verdict := by
  unfold verdict? at h ⊢
  split
  next hfind => rwa [hfind] at h
  next p hfind =>
    rw [hfind] at h
    dsimp only at h
    split
    next cause hparse =>
      rw [hparse] at h
      dsimp only at h
      split at h
      · cases h
      next hany => rw [if_neg hany]; exact h
    next m hparse => rwa [hparse] at h

/-- **What comes of an archive does not depend on what it is called.** -/
theorem migrateWith_extends {format : Container.Format} {mode : BufferMode} {data : Bytes}
    {result : Option Bytes} (h : Extends nested nested')
    (hr : (migrateWith format nested t mode label data).result = .ok result)
    (mode' : BufferMode) (label' : Bytes) :
    (migrateWith format nested' t mode' label' data).result = .ok result := by
  rw [migrateWith_result] at hr ⊢
  cases hread : format.read? data with
  | none => rw [hread] at hr; cases hr
  | some items =>
    rw [hread] at hr
    dsimp only at hr ⊢
    cases hitems : (migrateItems nested t mode label items).result with
    | error => rw [hitems] at hr; cases hr
    | ok written =>
      obtain ⟨es, rfl, hp, hfinish⟩ := migrateItems_eq_ok_iff.1 hitems
      obtain ⟨hp', hplans⟩ := hp.extends h label'
      have hall : plansOfAll nested' t label' es = plansOfAll nested t label es := by
        rw [plansOfAll, plansOfAll, hplans]
      have hitems' : (migrateItems nested' t mode' label' (es.map .entry)).result = .ok written := by
        refine migrateItems_eq_ok_iff.2 ⟨es, rfl, hp', ?_⟩
        rw [finish_result] at hfinish ⊢
        rw [hall]
        cases hv : verdict? t label (plansOfAll nested t label es) with
        | error => rw [hv] at hfinish; cases hfinish
        | ok verdict => rw [verdict?_of_label hv label']; rwa [hv] at hfinish
      rw [hitems']
      rwa [hitems] at hr

end

section
variable {format : Container.Format} {t : Table}

/-- Archives that are not too deep in one another are migrated alike if they may be deeper. -/
theorem migrateWithin?_extends {depth depth' : Nat} (hle : depth ≤ depth') :
    Extends (migrateWithin? format t depth) (migrateWithin? format t depth') := by
  induction depth generalizing depth' with
  | zero => exact nofun
  | succ depth ih =>
    obtain ⟨depth', rfl⟩ := Nat.exists_eq_add_one_of_ne_zero (Nat.ne_zero_of_lt hle)
    intro label data result h label'
    exact migrateWith_extends (ih (Nat.le_of_succ_le_succ hle)) h .inMemory label'

/-- An archive that can be migrated is migrated alike where others may be deeper in it. -/
theorem migrate_extends {depth depth' : Nat} (hle : depth ≤ depth') {mode : BufferMode}
    {label data : Bytes} {result : Option Bytes}
    (h : (migrate format t mode label data depth).result = .ok result) (mode' : BufferMode)
    (label' : Bytes) : (migrate format t mode' label' data depth').result = .ok result :=
  migrateWith_extends (migrateWithin?_extends hle) h mode' label'

/-- Where converted payloads wait does not matter. -/
theorem migrate_inMemory (format : Container.Format) (t : Table) (mode : BufferMode)
    (label data : Bytes) (depth : Nat) : (migrate format t .inMemory label data depth).result =
      (migrate format t mode label data depth).result := by
  rw [migrate, migrate, migrateWith_eq_inMemory _ _ t mode]

end

end PackageMigration.Archive
