import PackageMigration.Proofs.Archive.Plan
import PackageMigration.Proofs.Container.Completed
import PackageMigration.Proofs.Mapping.Order
/-
  What a migrated archive holds.

  * `IsLeftOut`, `IsPicked`: the entries that are not written, and the manifest that is repaired.
  * `repairFor`, `repairedData`: what the manifest is repaired for, and its bytes then.
  * `WrittenAs`: an entry and the entry that it is written as.
  * `Writes`: the entries of an archive and those of the migrated one, in order.
  * `Contains`: the entries of an archive, or of one in it; `Writable`: the lists that a run writes.

  Main statement: `migrate_complete`.
-/
namespace PackageMigration.Archive

open Migration (Error Event Run)

section
variable (nested : Nested) (t : Table) (label : Bytes)

/-- A signature is left out, and a directory whose name an entry before it has come to have. -/
def IsLeftOut (before : List Container.Entry) (e : Container.Entry) : Prop :=
  kindOf e = .signature ∨ kindOf e = .directory ∧ t.targetOf e ∈ before.map t.targetOf

/-- The last manifest is the one that is repaired. -/
def IsPicked (e : Container.Entry) (after : List Container.Entry) : Prop :=
  kindOf e = .manifest ∧ ∀ e' ∈ after, kindOf e' ≠ .manifest

/-- What became of the entries of an archive. Of entries with one name the last one tells the new
name. -/
def repairFor (es : List Container.Entry) : Manifest.Repair where
  changed name := es.any fun e => (newData? nested t label e).isSome && e.name == name
  renamed name := (es.reverse.find? fun e => t.targetOf e != e.name && e.name == name).map t.targetOf
  signed := es.any fun e => kindOf e == .signature

/-- A manifest as it is written in the migrated archive. -/
def repairedData (es : List Container.Entry) (m : Manifest) : Bytes :=
  (((m.convertValues? t).getD m).repair (repairFor nested t label es) (bytes version)).bytes

/-- `w` is written for the entry `e` between others: under its new name, in its own method, with its
new content if it has one. The last manifest is repaired. -/
structure WrittenAs (before : List Container.Entry) (e : Container.Entry) (after : List Container.Entry)
    (w : Container.Entry) : Prop where
  name : w.name = t.targetOf e
  method : w.method = e.method
  mode : w.mode = some (writtenMode e.mode)
  manifest : IsPicked e after → ∃ m, Manifest.parse? e.data = .ok m ∧
    w.data = repairedData nested t label (before ++ e :: after) m
  data : ¬ IsPicked e after → ∃ data, converted? nested t label e = .ok data ∧ w.data = data.getD e.data

/-- The entries of an archive behind others, and what is written for them. -/
inductive Writes : List Container.Entry → List Container.Entry → List Container.Entry → Prop
  | nil {before : List Container.Entry} : Writes before [] []
  | leftOut {before es ws : List Container.Entry} {e : Container.Entry} :
      IsLeftOut t before e → Writes (before ++ [e]) es ws → Writes before (e :: es) ws
  | written {before es ws : List Container.Entry} {e w : Container.Entry} :
      ¬ IsLeftOut t before e → WrittenAs nested t label before e es w →
      Writes (before ++ [e]) es ws → Writes before (e :: es) (w :: ws)

end

variable {nested : Nested} {t : Table} {label : Bytes}

/-! ## The manifest -/

theorem not_isLeftOut {before : List Container.Entry} {e : Container.Entry}
    (h : kindOf e = .manifest) : ¬ IsLeftOut t before e := by
  rintro (hl | ⟨hl, -⟩) <;> rw [h] at hl <;> cases hl

theorem verdict?_eq_changed {plans : List Plan} {manifest : Option Bytes}
    (h : verdict? t label plans = .ok (.changed manifest)) :
    (plans.find? fun p => p.kind == .manifest) = none ∧ manifest = none ∨
      ∃ p m, (plans.find? fun p => p.kind == .manifest) = some p ∧
        Manifest.parse? p.entry.data = .ok m ∧
        manifest = some (repairedManifest plans ((m.convertValues? t).getD m)) := by
  unfold verdict? at h
  split at h
  next hf =>
    split at h
    · cases h; exact .inl ⟨hf, rfl⟩
    · cases h
  next p hf =>
    refine .inr ⟨p, ?_⟩
    split at h
    next => split at h <;> cases h
    next m hm =>
      split at h
      next m' hm' => cases h; exact ⟨m, hf, hm, by rw [hm']; rfl⟩
      next hm' =>
        split at h
        · cases h; exact ⟨m, hf, hm, by rw [hm']; rfl⟩
        · cases h

/-- The plans with another content for the last manifest. -/
def withLastManifest (manifest : Bytes) : List Plan → List Plan
  | [] => []
  | p :: ps =>
    (if p.kind = .manifest ∧ ∀ q ∈ ps, q.kind ≠ .manifest then
      { p with content := .converted (.inMemory manifest) } else p) :: withLastManifest manifest ps

theorem withManifest_append (manifest : Bytes) (ps qs : List Plan) :
    withManifest manifest (ps ++ qs) =
      if ∀ p ∈ ps, p.kind ≠ .manifest then ps ++ withManifest manifest qs
      else withManifest manifest ps ++ qs := by
  induction ps with
  | nil => simp
  | cons p ps ih =>
    rw [List.cons_append, withManifest]
    by_cases h : p.kind = .manifest
    · simp [h, withManifest]
    · simp only [h, if_false, ih, withManifest, List.forall_mem_cons, ne_eq, not_false_eq_true,
        true_and]
      split <;> rfl

theorem withLastManifest_of_forall_ne (manifest : Bytes) {ps : List Plan}
    (h : ∀ p ∈ ps, p.kind ≠ .manifest) : withLastManifest manifest ps = ps := by
  induction ps with
  | nil => rfl
  | cons p ps ih =>
    obtain ⟨hp, hps⟩ := List.forall_mem_cons.1 h
    rw [withLastManifest, if_neg (fun hq => hp hq.1), ih hps]

/-- Among plans with the last one first, the first manifest is the last one. -/
theorem withManifest_reverse (manifest : Bytes) (ps : List Plan) :
    withManifest manifest ps.reverse = (withLastManifest manifest ps).reverse := by
  induction ps with
  | nil => rfl
  | cons p ps ih =>
    rw [List.reverse_cons, withManifest_append, withLastManifest, List.reverse_cons, ih]
    simp only [List.mem_reverse]
    by_cases hps : ∀ q ∈ ps, q.kind ≠ .manifest
    · rw [if_pos hps, withLastManifest_of_forall_ne manifest hps]
      by_cases hp : p.kind = .manifest
      · rw [if_pos ⟨hp, hps⟩]; simp [withManifest, hp]
      · rw [if_neg (fun h => hp h.1)]; simp [withManifest, hp]
    · rw [if_neg hps, if_neg (fun h => hps h.2)]

/-- The plan as it is written, in front of others. -/
def finalPlan (manifest : Option Bytes) (p : Plan) (after : List Plan) : Plan :=
  match manifest with
  | none => withoutSignature p
  | some s =>
    if p.kind = .manifest ∧ ∀ q ∈ after, q.kind ≠ .manifest then
      { p with content := .converted (.inMemory s) }
    else withoutSignature p

/-- The plans as they are written. -/
def finalPlans (manifest : Option Bytes) : List Plan → List Plan
  | [] => []
  | p :: ps => finalPlan manifest p ps :: finalPlans manifest ps

theorem kind_withoutSignature (p : Plan) : (withoutSignature p).kind = p.kind := by
  unfold withoutSignature
  split <;> rfl

theorem finalPlans_none (ps : List Plan) : finalPlans none ps = ps.map withoutSignature := by
  induction ps with
  | nil => rfl
  | cons p ps ih => rw [finalPlans, ih]; rfl

theorem finalPlans_some (s : Bytes) (ps : List Plan) :
    finalPlans (some s) ps = withLastManifest s (ps.map withoutSignature) := by
  induction ps with
  | nil => rfl
  | cons p ps ih =>
    have hall : (∀ q ∈ ps.map withoutSignature, q.kind ≠ .manifest) ↔ ∀ q ∈ ps, q.kind ≠ .manifest := by
      simp only [List.forall_mem_map, kind_withoutSignature]
    rw [finalPlans, ih, List.map_cons, withLastManifest]
    congr 1
    simp only [finalPlan, hall, kind_withoutSignature]
    split
    next h => simp [withoutSignature, h.1]
    next => rfl

/-- The entries written for plans, the first one first. -/
theorem outputs_eq (ps : List Plan) (manifest : Option Bytes) :
    Scan.outputs ⟨ps.reverse, .empty .inMemory⟩ manifest =
      (finalPlans manifest ps).filterMap (Plan.output? (.empty .inMemory)) := by
  cases manifest with
  | none => rw [finalPlans_none, Scan.outputs, withMetadata, ← List.map_reverse, List.reverse_reverse]
  | some s =>
    rw [finalPlans_some, Scan.outputs]
    simp only [withMetadata]
    rw [List.map_reverse, withManifest_reverse, List.reverse_reverse]

/-! ## Entries -/

theorem mem_plansOf {before es : List Container.Entry} {p : Plan}
    (h : p ∈ plansOf nested t label before es) :
    ∃ before' e after, es = before' ++ e :: after ∧
      p = planOf nested t label (before ++ before') e := by
  induction es generalizing before with
  | nil => cases h
  | cons e es ih =>
    rcases List.mem_cons.1 h with rfl | h
    · exact ⟨[], e, es, rfl, by rw [List.append_nil]⟩
    · obtain ⟨before', e', after, rfl, rfl⟩ := ih h
      exact ⟨e :: before', e', after, rfl, by rw [List.append_assoc]; rfl⟩

theorem plansOf_append (before es es' : List Container.Entry) :
    plansOf nested t label before (es ++ es') =
      plansOf nested t label before es ++ plansOf nested t label (before ++ es) es' := by
  induction es generalizing before with
  | nil => rw [List.nil_append, List.append_nil]; rfl
  | cons e es ih => simp [plansOf, ih]

theorem forall_kind_plansOf {P : EntryKind → Prop} {before es : List Container.Entry} :
    (∀ p ∈ plansOf nested t label before es, P p.kind) ↔ ∀ e ∈ es, P (kindOf e) := by
  induction es generalizing before with
  | nil => simp [plansOf]
  | cons e es ih => rw [plansOf, List.forall_mem_cons, List.forall_mem_cons, ih]; rfl

/-- The manifest that is picked is the last one. -/
theorem find?_plansOfAll {before after : List Container.Entry} {e : Container.Entry}
    (h : IsPicked e after) :
    ((plansOfAll nested t label (before ++ e :: after)).find? fun p => p.kind == .manifest) =
      some (planOf nested t label before e) := by
  have hafter : ((plansOf nested t label (before ++ [e]) after).reverse.find? fun p =>
      p.kind == .manifest) = none := by
    rw [List.find?_eq_none]
    intro p hp
    have := (forall_kind_plansOf (P := (· ≠ .manifest))).2 h.2 p (List.mem_reverse.1 hp)
    simpa using this
  rw [plansOfAll, plansOf_append, plansOf, List.reverse_append, List.reverse_cons, List.find?_append,
    List.find?_append, List.nil_append, hafter, List.find?_singleton,
    if_pos (show ((planOf nested t label before e).kind == .manifest) = true from beq_iff_eq.2 h.1)]
  rfl

/-- A directory has no content to convert. -/
theorem newData?_of_directory {e : Container.Entry} (h : kindOf e = .directory) :
    newData? nested t label e = none := by
  rw [newData?, converted?, h]; rfl

theorem isConverted_planOf {before : List Container.Entry} {e : Container.Entry}
    (h : t.targetOf e ∈ before.map t.targetOf → kindOf e = .directory) :
    (planOf nested t label before e).content.isConverted = (newData? nested t label e).isSome := by
  rw [planOf]
  split
  next hm => rw [newData?_of_directory (h (List.contains_iff_mem.1 hm))]; rfl
  next => cases newData? nested t label e <;> rfl

/-- What holds of some plan holds of its entry. -/
theorem any_plansOf {before es : List Container.Entry} (h : Plannable nested t label before es)
    {f : Plan → Bool} {g : Container.Entry → Bool}
    (hfg : ∀ {before e}, (t.targetOf e ∈ before.map t.targetOf → kindOf e = .directory) →
      f (planOf nested t label before e) = g e) :
    (plansOf nested t label before es).any f = es.any g := by
  induction h with
  | nil => rfl
  | cons hc hd _ ih => rw [plansOf, List.any_cons, List.any_cons, ih, hfg hd]

/-- What the manifest is repaired for can be told from the entries. -/
theorem repairOf_plansOfAll {es : List Container.Entry} (h : Plannable nested t label [] es) :
    repairOf (plansOfAll nested t label es) = repairFor nested t label es := by
  have hrenamed : ∀ {before es name},
      ((plansOf nested t label before es).reverse.find? fun p => p.isRenamed && p.entry.name == name).map
        Plan.target =
      (es.reverse.find? fun e => t.targetOf e != e.name && e.name == name).map t.targetOf := by
    intro before es name
    induction es generalizing before with
    | nil => rfl
    | cons e es ih =>
      rw [plansOf, List.reverse_cons, List.reverse_cons, List.find?_append, List.find?_append,
        Option.map_or, Option.map_or, ih]
      congr 1
      simp only [List.find?_singleton]
      show Option.map Plan.target (if (t.targetOf e != e.name && e.name == name) = true then
        some (planOf nested t label before e) else none) = _
      split <;> rfl
  rw [repairOf, repairFor, plansOfAll]
  congr 1
  · funext name
    rw [List.any_reverse]
    exact any_plansOf h fun hd => by rw [isConverted_planOf hd]; rfl
  · funext name; exact hrenamed
  · rw [List.any_reverse]
    exact any_plansOf h fun _ => rfl

/-! ## Completeness -/

/-- A plan that is not left out is written with its new content. -/
theorem output?_planOf {before : List Container.Entry} {e : Container.Entry}
    (h : t.targetOf e ∉ before.map t.targetOf) :
    (planOf nested t label before e).output? (.empty .inMemory) =
      some ((planOf nested t label before e).writtenEntry
        ((newData? nested t label e).getD e.data)) := by
  have hcontent : (planOf nested t label before e).content =
      (hold (.empty .inMemory) (newData? nested t label e)).1 := if_neg (mt List.contains_iff_mem.1 h)
  rw [Plan.output?, hcontent]
  cases newData? nested t label e <;> rfl

/-- One entry is written as it has to be, or left out. -/
theorem output?_finalPlan {before es : List Container.Entry} {e : Container.Entry}
    (hc : converted? nested t label e = .ok (newData? nested t label e))
    (hd : t.targetOf e ∈ before.map t.targetOf → kindOf e = .directory) {manifest : Option Bytes}
    (hm : IsPicked e es → ∃ m, Manifest.parse? e.data = .ok m ∧
      manifest = some (repairedData nested t label (before ++ e :: es) m)) :
    match (finalPlan manifest (planOf nested t label before e)
      (plansOf nested t label (before ++ [e]) es)).output? (.empty .inMemory) with
    | none => IsLeftOut t before e
    | some w => ¬ IsLeftOut t before e ∧ WrittenAs nested t label before e es w := by
  have hpicked : IsPicked e es ↔ (planOf nested t label before e).kind = .manifest ∧
      ∀ q ∈ plansOf nested t label (before ++ [e]) es, q.kind ≠ .manifest :=
    and_congr_right fun _ => (forall_kind_plansOf (P := (· ≠ .manifest))).symm
  by_cases hp : IsPicked e es
  · obtain ⟨m, hparse, rfl⟩ := hm hp
    rw [finalPlan, if_pos (hpicked.1 hp)]
    exact ⟨not_isLeftOut hp.1, rfl, rfl, rfl, fun _ => ⟨m, hparse, rfl⟩, fun h => absurd hp h⟩
  have hfinal : finalPlan manifest (planOf nested t label before e)
      (plansOf nested t label (before ++ [e]) es) =
        withoutSignature (planOf nested t label before e) := by
    cases manifest with
    | none => rfl
    | some s => exact if_neg (mt hpicked.2 hp)
  rw [hfinal]
  by_cases hs : kindOf e = .signature
  · rw [withoutSignature, if_pos (show (planOf nested t label before e).kind = .signature from hs)]
    exact .inl hs
  rw [withoutSignature, if_neg (show (planOf nested t label before e).kind ≠ .signature from hs)]
  by_cases ht : t.targetOf e ∈ before.map t.targetOf
  · have hcontent : (planOf nested t label before e).content = .dropped :=
      if_pos (List.contains_iff_mem.2 ht)
    rw [Plan.output?, hcontent]
    exact .inr ⟨hd ht, ht⟩
  · rw [output?_planOf ht]
    refine ⟨?_, rfl, rfl, rfl, fun h => absurd h hp, fun _ => ⟨_, hc, rfl⟩⟩
    rintro (h | ⟨-, h⟩)
    · exact hs h
    · exact ht h

theorem writes_finalPlans {before es : List Container.Entry} (hp : Plannable nested t label before es)
    {manifest : Option Bytes}
    (hm : ∀ before' e after, es = before' ++ e :: after → IsPicked e after →
      ∃ m, Manifest.parse? e.data = .ok m ∧
        manifest = some (repairedData nested t label (before ++ es) m)) :
    Writes nested t label before es
      ((finalPlans manifest (plansOf nested t label before es)).filterMap
        (Plan.output? (.empty .inMemory))) := by
  induction hp with
  | nil => exact .nil
  | @cons before es e hc hd _ ih =>
    have ih := ih fun before' e' after he hp => by
      obtain ⟨m, hparse, hman⟩ := hm (e :: before') e' after (by rw [he]; rfl) hp
      exact ⟨m, hparse, by rw [hman, List.append_assoc]; rfl⟩
    have he := output?_finalPlan hc hd (hm [] e es rfl)
    rw [plansOf, finalPlans]
    generalize ho : (finalPlan manifest (planOf nested t label before e)
      (plansOf nested t label (before ++ [e]) es)).output? (.empty .inMemory) = o at he
    cases o with
    | none => rw [List.filterMap_cons_none ho]; exact .leftOut he ih
    | some w => rw [List.filterMap_cons_some ho]; exact .written he.1 he.2 ih

/-- The new names of entries that are written are new. -/
theorem Writes.nodup {before es ws : List Container.Entry} (hw : Writes nested t label before es ws)
    (hp : Plannable nested t label before es) :
    (ws.map Container.Entry.name).Nodup ∧
      ∀ w ∈ ws, w.name ∉ before.map t.targetOf := by
  induction hw with
  | nil => exact ⟨.nil, nofun⟩
  | leftOut _ _ ih =>
    cases hp with
    | cons _ _ hp =>
      obtain ⟨hn, hnew⟩ := ih hp
      exact ⟨hn, fun w hw h => hnew w hw (by rw [List.map_append]; exact List.mem_append_left _ h)⟩
  | @written before es ws e w hl hwritten _ ih =>
    cases hp with
    | cons _ hd hp =>
      obtain ⟨hn, hnew⟩ := ih hp
      have htarget : t.targetOf e ∉ before.map t.targetOf := fun h => hl (.inr ⟨hd h, h⟩)
      rw [List.map_cons, List.nodup_cons, List.forall_mem_cons, hwritten.name]
      refine ⟨⟨fun h => ?_, hn⟩, htarget, fun w' hw' h => hnew w' hw' ?_⟩
      · obtain ⟨w', hw', he⟩ := List.mem_map.1 h
        exact hnew w' hw' (by rw [he]; simp)
      · rw [List.map_append]; exact List.mem_append_left _ h

/-- The entries written for an archive. -/
theorem writes_of_migrateItems {mode : BufferMode} {items : List Container.Item}
    {written : List Container.Entry}
    (h : (migrateItems nested t mode label items).result = .ok (some written)) :
    ∃ es, items = es.map .entry ∧ Plannable nested t label [] es ∧
      Writes nested t label [] es written := by
  obtain ⟨es, manifest, he, hp, hv, rfl⟩ := migrateItems_eq_some_iff.1 h
  refine ⟨es, he, hp, ?_⟩
  rw [plansOfAll, outputs_eq]
  refine writes_finalPlans hp ?_
  rintro before' e after rfl hpicked
  have hfind := @find?_plansOfAll nested t label before' after e hpicked
  rcases verdict?_eq_changed hv with ⟨hnone, -⟩ | ⟨p, m, hp', hm, rfl⟩
  · rw [hfind] at hnone; cases hnone
  · obtain rfl := Option.some.inj (hp'.symm.trans hfind)
    refine ⟨m, hm, ?_⟩
    rw [repairedManifest, repairOf_plansOfAll hp]
    rfl

/-- What is written is written for an entry. -/
theorem Writes.exists_of_append {before es ws ws' : List Container.Entry} {w : Container.Entry}
    (h : Writes nested t label before es (ws ++ w :: ws')) :
    ∃ es₁ e es₂, es = es₁ ++ e :: es₂ ∧ ¬ IsLeftOut t (before ++ es₁) e ∧
      WrittenAs nested t label (before ++ es₁) e es₂ w ∧
      Writes nested t label (before ++ es₁ ++ [e]) es₂ ws' := by
  generalize hall : ws ++ w :: ws' = all at h
  induction h generalizing ws with
  | nil => simp at hall
  | @leftOut before es all e _ _ ih =>
    obtain ⟨es₁, e', es₂, rfl, hl, hw, hws⟩ := ih hall
    exact ⟨e :: es₁, e', es₂, rfl, by simpa using hl, by simpa using hw, by simpa using hws⟩
  | @written before es all e w₁ hl₁ hw₁ hws₁ ih =>
    cases ws with
    | nil =>
      obtain ⟨rfl, rfl⟩ := List.cons.inj hall
      exact ⟨[], e, es, rfl, by simpa using hl₁, by simpa using hw₁, by simpa using hws₁⟩
    | cons w₂ ws =>
      obtain ⟨-, hall⟩ := List.cons.inj hall
      obtain ⟨es₁, e', es₂, rfl, hl, hw, hws⟩ := ih hall
      exact ⟨e :: es₁, e', es₂, rfl, by simpa using hl, by simpa using hw, by simpa using hws⟩

/-- An entry is left out or written. -/
theorem Writes.leftOut_or_written {before before' after ws : List Container.Entry}
    {e : Container.Entry} (h : Writes nested t label before (before' ++ e :: after) ws) :
    IsLeftOut t (before ++ before') e ∨
      ∃ w ∈ ws, WrittenAs nested t label (before ++ before') e after w := by
  generalize hes : before' ++ e :: after = es at h
  induction h generalizing before' with
  | nil => simp at hes
  | @leftOut before es ws e₁ hl _ ih =>
    cases before' with
    | nil =>
      obtain ⟨rfl, rfl⟩ := List.cons.inj hes
      exact .inl (by simpa using hl)
    | cons e₂ before' =>
      obtain ⟨rfl, hrest⟩ := List.cons.inj hes
      simpa using ih hrest
  | @written before es ws e₁ w _ hw _ ih =>
    cases before' with
    | nil =>
      obtain ⟨rfl, rfl⟩ := List.cons.inj hes
      exact .inr ⟨w, List.mem_cons_self, by simpa using hw⟩
    | cons e₂ before' =>
      obtain ⟨rfl, hrest⟩ := List.cons.inj hes
      refine (ih hrest).imp (by simp) ?_
      rintro ⟨w', hw', hwritten⟩
      exact ⟨w', List.mem_cons_of_mem w hw', by simpa using hwritten⟩

/-- The entries of an archive that is migrated, and those of the migrated one. -/
theorem exists_writes_of_migrateWith {format : Container.Format} {mode : BufferMode} {data out : Bytes}
    (h : (migrateWith format nested t mode label data).result = .ok (some out)) :
    ∃ es written, format.read? data = some (es.map .entry) ∧ out = format.write written ∧
      Plannable nested t label [] es ∧ Writes nested t label [] es written := by
  obtain ⟨items, written, hread, hitems, rfl⟩ := migrateWith_eq_some_iff.1 h
  obtain ⟨es, rfl, hp, hw⟩ := writes_of_migrateItems hitems
  exact ⟨es, written, hread, rfl, hp, hw⟩

/-! ## What a run writes -/

/-- The entries of an archive, or those of an archive in it, however deep. -/
inductive Contains (format : Container.Format) : Bytes → List Container.Entry → Prop
  | own {data : Bytes} {es : List Container.Entry} :
      format.read? data = some (es.map .entry) → Contains format data es
  | inner {data : Bytes} {es es' : List Container.Entry} {e : Container.Entry} :
      format.read? data = some (es.map .entry) → e ∈ es → kindOf e = .nestedArchive →
      Contains format e.data es' → Contains format data es'

/-- The lists of entries that a run over an archive writes, for the archive or for one in it. That the
format reads these back is all that is asked of it; ZIP containers do so if there is room for them
(`faithful_writable`). -/
def Writable (format : Container.Format) (t : Table) (data : Bytes) (ws : List Container.Entry) : Prop :=
  ∃ depth label es, Contains format data es ∧ Plannable (migrateWithin? format t depth) t label [] es ∧
    Writes (migrateWithin? format t depth) t label [] es ws

/-- What a run writes for an archive in another one, a run over the other one writes. -/
theorem Writable.of_inner {format : Container.Format} {data : Bytes} {es ws : List Container.Entry}
    {e : Container.Entry} (hread : format.read? data = some (es.map .entry)) (he : e ∈ es)
    (hk : kindOf e = .nestedArchive) (h : Writable format t e.data ws) : Writable format t data ws := by
  obtain ⟨depth, label, es', hin, hp, hw⟩ := h
  exact ⟨depth, label, es', .inner hread he hk hin, hp, hw⟩

/-- What is written for an archive reads back if what a run over it writes does. -/
theorem Writes.read?_write {format : Container.Format} {depth : Nat} {data : Bytes}
    {es ws : List Container.Entry} (hw : Writes (migrateWithin? format t depth) t label [] es ws)
    (hp : Plannable (migrateWithin? format t depth) t label [] es)
    (hread : format.read? data = some (es.map .entry)) (hf : format.Faithful (Writable format t data)) :
    format.read? (format.write ws) = some (ws.map .entry) :=
  hf ws ⟨depth, label, es, .own hread, hp, hw⟩

/-- **A migrated archive is complete.** Its entries are those of the archive in their order, without
the signatures and the directories whose names are taken. Each has its new name, its own method and
its new content, the last manifest the repaired one; and no name is used twice. Archives may be in
one another to any depth. -/
theorem migrate_complete {format : Container.Format} {mode : BufferMode} {data out : Bytes}
    {depth : Nat}
    (h : (migrateWith format (migrateWithin? format t depth) t mode label data).result =
      .ok (some out)) :
    ∃ es written, format.read? data = some (es.map .entry) ∧ out = format.write written ∧
      (format.Faithful (Writable format t data) → format.read? out = some (written.map .entry)) ∧
      Writes (migrateWithin? format t depth) t label [] es written ∧
      (written.map Container.Entry.name).Nodup := by
  obtain ⟨es, written, hread, rfl, hp, hw⟩ := exists_writes_of_migrateWith h
  exact ⟨es, written, hread, rfl, hw.read?_write hp hread, hw, (hw.nodup hp).1⟩

/-- A signed archive with a text to convert and an entry to rename. -/
theorem migrate_complete_signed :
    let data := Container.Zip.write [⟨bytes "META-INF/A.SF", .stored, none, []⟩,
      ⟨bytes "javax/el/", .stored, none, []⟩, ⟨bytes "a.txt", .stored, none, bytes "javax.el.A"⟩]
    let out := Container.Zip.write [⟨bytes "jakarta/el/", .stored, some 0o100644, []⟩,
      ⟨bytes "a.txt", .stored, some 0o100644, bytes "jakarta.el.A"⟩]
    (migrate Container.zip.completed Profile.tomcat.table .spooled (bytes "c.jar") data).result =
        .ok (some out) ∧
      ∃ es written, Container.zip.completed.read? data = some (es.map .entry) ∧
        out = Container.zip.completed.write written ∧
        Container.zip.completed.read? out = some (written.map .entry) ∧
        Writes (migrateWithin? Container.zip.completed Profile.tomcat.table nestingLimit)
          Profile.tomcat.table (bytes "c.jar") [] es written ∧
        (written.map Container.Entry.name).Nodup := by
  intro data out
  have h : (migrate Container.zip.completed Profile.tomcat.table .spooled (bytes "c.jar") data).result =
      .ok (some out) := by
    rw [Profile.table_eq_orderedTable]
    decide +kernel
  obtain ⟨es, written, hread, hout, hagain, hw, hnodup⟩ := migrate_complete h
  exact ⟨h, es, written, hread, hout, hagain (Container.faithful_completed _ _), hw, hnodup⟩

end PackageMigration.Archive
