import Mathlib.Data.Set.List
import PackageMigration.Proofs.Archive.Target
import PackageMigration.Proofs.Archive.Unchanged
import PackageMigration.Proofs.ClassFile.Conversion
/-
  How the migration of an archive ends.

  * `Unconvertible`, `Touched`, `Faulty`: what ends it with an error.
  * `Fails`: the same with archives in archives.
  * `FindsNothing`: what ends it with the archive as it is.

  Main statement: `migrate_outcome`.
-/
namespace PackageMigration.Archive

open Migration (Error Event Run)

section
variable (fails : Bytes → Bytes → Prop) (nested : Nested) (t : Table) (label : Bytes)

/-- The content of an entry cannot be converted. The archives that fail are given by label and
content. -/
inductive Unconvertible (e : Container.Entry) : Prop
  | malformed {cause : ClassFile.Error} :
      kindOf e = .classBinary → ClassFile.parse? e.data = .error cause → Unconvertible e
  | tooLong {c : ClassFile} {i n : Nat} :
      kindOf e = .classBinary → ClassFile.parse? e.data = .ok c → t.FirstTooLong c i n →
      Unconvertible e
  | nested : kindOf e = .nestedArchive → fails (entryLabel label e.name) e.data → Unconvertible e

/-- Some entry is converted or renamed. -/
def Touched (es : List Container.Entry) : Prop :=
  ∃ e ∈ es, (∃ data, converted? nested t label e = .ok (some data)) ∨ t.targetOf e ≠ e.name

/-- Something is wrong with the items of an archive. -/
inductive Faulty (items : List Container.Item) : Prop
  | item {item : Container.Item} : item ∈ items → (∀ e, item ≠ .entry e) → Faulty items
  | content {e : Container.Entry} :
      .entry e ∈ items → Unconvertible fails t label e → Faulty items
  | repeated {before between after : List Container.Item} {e e' : Container.Entry} :
      items = before ++ .entry e :: between ++ .entry e' :: after →
      kindOf e ≠ .directory → kindOf e' ≠ .directory → t.targetOf e = t.targetOf e' → Faulty items
  | manifest {before after : List Container.Entry} {e : Container.Entry} {cause : Manifest.Error} :
      items = (before ++ e :: after).map .entry → IsPicked e after →
      Manifest.parse? e.data = .error cause → Touched nested t label (before ++ e :: after) →
      Faulty items

end

/-- The migration of an archive fails. It may be the first of at most so many in one another. -/
def Fails (format : Container.Format) (t : Table) : Nat → Bytes → Bytes → Prop
  | 0, _, _ => True
  | depth + 1, label, data => ∀ items, format.read? data = some items →
      Faulty (Fails format t depth) (migrateWithin? format t depth) t label items

/-- The migration of an archive finds nothing to do: no entry is converted or renamed, and the last
manifest has no value to convert, if there is one that can be read. -/
def FindsNothing (format : Container.Format) (nested : Nested) (t : Table) (label data : Bytes) : Prop :=
  ∃ es, format.read? data = some (es.map .entry) ∧ ¬ Touched nested t label es ∧
    ∀ before e after, es = before ++ e :: after → IsPicked e after →
      ∀ m, Manifest.parse? e.data = .ok m → m.convertValues? t = none

variable {fails : Bytes → Bytes → Prop} {nested : Nested} {t : Table} {label : Bytes}
variable {e : Container.Entry} {es : List Container.Entry}

/-! ## Contents -/

theorem exists_error_of_classBinary {data : Bytes} :
    (∃ cause, t.convertClass? data = .error cause) ↔
      (∃ cause, ClassFile.parse? data = .error cause) ∨
        ∃ c i n, ClassFile.parse? data = .ok c ∧ t.FirstTooLong c i n := by
  cases hp : ClassFile.parse? data with
  | error cause => simp [Table.convertClass?_of_parse?_error hp]
  | ok c =>
    simp only [Table.convertClass?_eq_tooLong_iff hp, reduceCtorEq, exists_false, false_or,
      Except.ok.injEq]
    constructor
    · rintro ⟨_, i, n, rfl, h⟩
      exact ⟨c, i, n, rfl, h⟩
    · rintro ⟨_, i, n, rfl, h⟩
      exact ⟨_, i, n, rfl, h⟩

theorem exists_error_iff_unconvertible
    (hfails : ∀ label data, (∃ cause, nested label data = .error cause) ↔ fails label data) :
    (∃ cause, converted? nested t label e = .error cause) ↔ Unconvertible fails t label e := by
  have hmap : ∀ x : Except ClassFile.Error (Option Bytes),
      (∃ cause, x.mapError (Error.classFormat (entryLabel label e.name)) = .error cause) ↔
        ∃ cause, x = .error cause := by
    intro x; cases x <;> simp [Except.mapError]
  unfold converted?
  constructor
  · intro h
    cases hk : kindOf e with
    | classBinary =>
      rw [hk] at h
      rcases exists_error_of_classBinary.1 ((hmap _).1 h) with ⟨_, hp⟩ | ⟨_, _, _, hp, hl⟩
      · exact .malformed hk hp
      · exact .tooLong hk hp hl
    | nestedArchive =>
      rw [hk] at h
      exact .nested hk ((hfails _ _).1 h)
    | directory | manifest | signature | serviceRegistration | sourceText | passthrough =>
      rw [hk] at h
      obtain ⟨_, h⟩ := h
      cases h
  · intro h
    cases h with
    | malformed hk hp =>
      rw [hk]
      exact (hmap _).2 (exists_error_of_classBinary.2 (.inl ⟨_, hp⟩))
    | tooLong hk hp hl =>
      rw [hk]
      exact (hmap _).2 (exists_error_of_classBinary.2 (.inr ⟨_, _, _, hp, hl⟩))
    | nested hk hf =>
      rw [hk]
      exact (hfails _ _).2 hf

theorem newData?_eq_some_iff {data : Bytes} :
    newData? nested t label e = some data ↔ converted? nested t label e = .ok (some data) := by
  unfold newData?
  cases converted? nested t label e <;> simp

/-! ## Faults -/

theorem touched_iff (hp : Plannable nested t label [] es) :
    Touched nested t label es ↔ anyConverted (plansOfAll nested t label es) = true := by
  rw [← not_iff_not, Bool.not_eq_true, anyConverted_plansOfAll_eq_false_iff hp, Touched]
  simp only [not_exists, not_and, not_or, not_not, ← newData?_eq_some_iff,
    Option.eq_none_iff_forall_ne_some]

/-- A migration comes to a verdict if the manifest can be read or nothing else changes. -/
theorem exists_verdict?_eq_ok_iff {plans : List Plan} :
    (∃ verdict, verdict? t label plans = .ok verdict) ↔
      ∀ p, (plans.find? fun p => p.kind == .manifest) = some p →
        ∀ cause, Manifest.parse? p.entry.data = .error cause → anyConverted plans = false := by
  unfold verdict?
  cases plans.find? fun p => p.kind == .manifest with
  | none => simp
  | some p =>
    cases hm : Manifest.parse? p.entry.data with
    | error => cases anyConverted plans <;> simp [hm]
    | ok m => cases hc : m.convertValues? t <;> simp [hm, hc]

theorem exists_eq_map_entry {items : List Container.Item} (h : ∀ item ∈ items, ∃ e, item = .entry e) :
    ∃ es : List Container.Entry, items = es.map .entry := by
  have hitems : items ∈ Set.range (List.map Container.Item.entry) := by
    rw [Set.range_list_map]
    intro item hitem
    obtain ⟨e, rfl⟩ := h item hitem
    exact ⟨e, rfl⟩
  obtain ⟨es, hes⟩ := hitems
  exact ⟨es, hes.symm⟩

/-- Nothing is wrong with items that are entries which can be planned and come to a verdict. -/
theorem not_faulty_iff
    (hfails : ∀ label data, (∃ cause, nested label data = .error cause) ↔ fails label data)
    {items : List Container.Item} :
    ¬ Faulty fails nested t label items ↔
      ∃ es, items = es.map .entry ∧ Plannable nested t label [] es ∧
        ∃ verdict, verdict? t label (plansOfAll nested t label es) = .ok verdict := by
  constructor
  · intro h
    obtain ⟨es, rfl⟩ := exists_eq_map_entry fun item hitem => by
      by_contra hne
      exact h (.item hitem fun e he => hne ⟨e, he⟩)
    have hp : Plannable nested t label [] es := by
      refine plannable_iff.2 ⟨fun e he => ?_, ?_⟩
      · cases hc : converted? nested t label e with
        | ok data => rw [(converted?_eq_ok_iff.1 hc).2]
        | error cause =>
          exact absurd (.content (List.mem_map_of_mem he)
            ((exists_error_iff_unconvertible hfails).1 ⟨cause, hc⟩)) h
      · rintro before e after rfl hmem
        by_contra hd
        obtain ⟨e', he', htarget⟩ := List.mem_map.1 hmem
        obtain ⟨before, between, rfl⟩ := List.append_of_mem he'
        have hitems : (before ++ e' :: between ++ e :: after).map Container.Item.entry =
            before.map .entry ++ .entry e' :: between.map .entry ++ .entry e :: after.map .entry := by
          simp
        refine h (.repeated hitems (fun hd' => hd ?_) hd htarget)
        rw [kindOf_eq_directory_iff_targetOf (t := t), ← htarget]
        exact kindOf_eq_directory_iff_targetOf.1 hd'
    refine ⟨es, rfl, hp, exists_verdict?_eq_ok_iff.2 fun p hfind cause hparse => ?_⟩
    obtain ⟨before, e, after, rfl, hpicked, rfl⟩ := find?_plansOfAll_eq_some_iff.1 hfind
    rw [← Bool.not_eq_true, ← touched_iff hp]
    exact fun ht => h (.manifest rfl hpicked hparse ht)
  · rintro ⟨es, rfl, hp, hv⟩ h
    obtain ⟨hdata, hdirs⟩ := plannable_iff.1 hp
    cases h with
    | item hitem hne =>
      obtain ⟨e, -, rfl⟩ := List.mem_map.1 hitem
      exact hne e rfl
    | @content e he hun =>
      replace he : e ∈ es := by simpa using he
      obtain ⟨cause, hc⟩ := (exists_error_iff_unconvertible hfails).2 hun
      rw [hdata e he] at hc
      cases hc
    | @repeated before between after e e' heq hd hd' htarget =>
      obtain ⟨es₁, es₂, rfl, h₁, h₂⟩ := List.map_eq_append_iff.1 heq
      obtain ⟨es₃, es₄, rfl, h₃, h₄⟩ := List.map_eq_append_iff.1 h₁
      obtain ⟨_, es₅, rfl, he', -⟩ := List.map_eq_cons_iff.1 h₂
      obtain ⟨_, es₆, rfl, he, -⟩ := List.map_eq_cons_iff.1 h₄
      cases he
      cases he'
      refine hd' (hdirs _ _ _ rfl ?_)
      rw [← htarget]
      exact List.mem_map_of_mem (by simp)
    | @manifest before after e cause heq hpicked hparse ht =>
      obtain rfl := eq_of_map_entry heq
      have hany := exists_verdict?_eq_ok_iff.1 hv _ (find?_plansOfAll hpicked) cause hparse
      rw [touched_iff hp, hany] at ht
      cases ht

/-! ## Runs -/

variable {format : Container.Format} {mode : BufferMode} {data : Bytes} {depth : Nat}

theorem exists_migrateItems_eq_ok_iff {items : List Container.Item} :
    (∃ result, (migrateItems nested t mode label items).result = .ok result) ↔
      ∃ es, items = es.map .entry ∧ Plannable nested t label [] es ∧
        ∃ verdict, verdict? t label (plansOfAll nested t label es) = .ok verdict := by
  simp only [migrateItems_eq_ok_iff, finish_result]
  constructor
  · rintro ⟨_, es, he, hp, hr⟩
    cases hv : verdict? t label (plansOfAll nested t label es) with
    | error => rw [hv] at hr; cases hr
    | ok verdict => exact ⟨es, he, hp, verdict, hv⟩
  · rintro ⟨es, he, hp, verdict, hv⟩
    exact ⟨_, es, he, hp, by rw [hv]; rfl⟩

/-- An archive fails if the archives in it that fail are told. -/
theorem exists_migrateWith_eq_error_iff
    (hfails : ∀ label data, (∃ cause, nested label data = .error cause) ↔ fails label data) :
    (∃ cause, (migrateWith format nested t mode label data).result = .error cause) ↔
      ∀ items, format.read? data = some items → Faulty fails nested t label items := by
  rw [migrateWith_result]
  cases format.read? data with
  | none => simp
  | some items =>
    simp only [exists_map_eq_error_iff, Option.some.injEq, forall_eq']
    rw [exists_error_iff_not_exists_ok, exists_migrateItems_eq_ok_iff, ← not_faulty_iff hfails,
      not_not]

/-- Archives in archives fail as they should, however deep they are in one another. -/
theorem exists_migrateWithin?_eq_error_iff (format : Container.Format) (t : Table) (depth : Nat)
    (label data : Bytes) :
    (∃ cause, migrateWithin? format t depth label data = .error cause) ↔
      Fails format t depth label data := by
  induction depth generalizing label data with
  | zero => exact iff_of_true ⟨_, rfl⟩ trivial
  | succ depth ih => exact exists_migrateWith_eq_error_iff ih

theorem plannable_of_migrateWith {result : Option Bytes}
    (h : (migrateWith format nested t mode label data).result = .ok result)
    (hread : format.read? data = some (es.map .entry)) : Plannable nested t label [] es := by
  rw [migrateWith_result, hread] at h
  have hok : ∃ written, (migrateItems nested t mode label (es.map .entry)).result = .ok written := by
    cases hr : (migrateItems nested t mode label (es.map .entry)).result with
    | error => simp [hr, Except.map] at h
    | ok written => exact ⟨written, rfl⟩
  obtain ⟨es', hes, hp, -⟩ := exists_migrateItems_eq_ok_iff.1 hok
  obtain rfl := eq_of_map_entry hes
  exact hp

/-- An archive that does not fail stays as it is if the migration finds nothing. -/
theorem migrateWith_eq_none_iff_findsNothing {result : Option Bytes}
    (h : (migrateWith format nested t mode label data).result = .ok result) :
    result = none ↔ FindsNothing format nested t label data := by
  have hnone : result = none ↔ (migrateWith format nested t mode label data).result = .ok none := by
    rw [h, Except.ok.injEq]
  rw [hnone, migrateWith_eq_none_iff]
  simp only [migrateItems_eq_none_iff, verdict?_eq_unchanged_iff, find?_plansOfAll_eq_some_iff]
  constructor
  · rintro ⟨_, hread, es, rfl, hp, hany, hmanifest⟩
    refine ⟨es, hread, by rw [touched_iff hp, hany]; decide, ?_⟩
    intro before e after he hpicked m hm
    exact hmanifest _ ⟨before, e, after, he, hpicked, rfl⟩ m hm
  · rintro ⟨es, hread, htouched, hmanifest⟩
    have hp := plannable_of_migrateWith h hread
    rw [touched_iff hp, Bool.not_eq_true] at htouched
    refine ⟨_, hread, es, rfl, hp, htouched, ?_⟩
    rintro p ⟨before, e, after, he, hpicked, rfl⟩ m hm
    exact hmanifest before e after he hpicked m hm

/-! ## Events -/

theorem writing_notMem_scanItems {total done : Nat} {s : Scan} {items : List Container.Item} :
    .writing ∉ (scanItems nested t label total done s items).events := by
  induction items generalizing done s with
  | nil => exact List.not_mem_nil
  | cons item items ih => simp [scanItems, Run.mem_events_bind_iff, ih]

theorem writing_mem_finish_iff {s : Scan} :
    .writing ∈ (s.finish t label).events ↔
      ∃ written, (s.finish t label).result = .ok (some written) := by
  simp only [Scan.finish, Run.mem_events_bind_iff, Run.result_bind, bind_eq_ok_iff]
  simp only [Run.events_report, Run.result_report, Run.events_ofExcept, Run.result_ofExcept]
  cases verdict? t label s.plans with
  | error => simp
  | ok verdict => cases verdict <;> simp [Run.report_bind]

theorem writing_mem_migrateItems_iff {items : List Container.Item} :
    .writing ∈ (migrateItems nested t mode label items).events ↔
      ∃ written, (migrateItems nested t mode label items).result = .ok (some written) := by
  simp only [migrateItems_eq_finish, Run.mem_events_bind_iff, Run.result_bind, bind_eq_ok_iff,
    writing_notMem_scanItems, writing_mem_finish_iff, false_or]
  exact ⟨fun ⟨s, hs, written, hw⟩ => ⟨written, s, hs, hw⟩,
    fun ⟨written, s, hs, hw⟩ => ⟨s, hs, written, hw⟩⟩

/-- An archive is begun to be written only if it is written. -/
theorem writing_mem_migrateWith_iff :
    .writing ∈ (migrateWith format nested t mode label data).events ↔
      ∃ out, (migrateWith format nested t mode label data).result = .ok (some out) := by
  rw [migrateWith]
  simp only [Run.report_bind, List.mem_cons, reduceCtorEq, false_or]
  cases format.read? data with
  | none => simp
  | some items =>
    simp only [Run.mem_events_bind_iff, writing_mem_migrateItems_iff, Run.result_bind, bind_eq_ok_iff,
      Run.events_pure, Run.result_pure, List.not_mem_nil, and_false, exists_false, or_false,
      Except.ok.injEq, Option.map_eq_some_iff]
    constructor
    · rintro ⟨written, hw⟩
      exact ⟨format.write written, some written, hw, written, rfl, rfl⟩
    · rintro ⟨out, _, hw, written, rfl, -⟩
      exact ⟨written, hw⟩

/-- **An archive is migrated as a whole or not at all.** The run fails if something is wrong with the
archive or one in it, leaves it as it is if it finds nothing to do, and otherwise migrates it. Only
then anything is written. Archives may be in one another to any depth. -/
theorem migrate_outcome (format : Container.Format) (t : Table) (mode : BufferMode) (depth : Nat)
    (label data : Bytes) :
    let nested := migrateWithin? format t depth
    let run := migrateWith format nested t mode label data
    ((∃ cause, run.result = .error cause) ↔ Fails format t (depth + 1) label data) ∧
      (run.result = .ok none ↔
        ¬ Fails format t (depth + 1) label data ∧ FindsNothing format nested t label data) ∧
      ((∃ out, run.result = .ok (some out)) ↔
        ¬ Fails format t (depth + 1) label data ∧ ¬ FindsNothing format nested t label data) ∧
      (.writing ∈ run.events ↔ ∃ out, run.result = .ok (some out)) := by
  intro nested run
  have hfails : (∃ cause, run.result = .error cause) ↔ Fails format t (depth + 1) label data :=
    exists_migrateWith_eq_error_iff (exists_migrateWithin?_eq_error_iff format t depth)
  refine ⟨hfails, ?_, ?_, writing_mem_migrateWith_iff⟩
  all_goals
    rw [← hfails]
    cases hr : run.result with
    | error cause => simp
    | ok result =>
      have hfinds := migrateWith_eq_none_iff_findsNothing hr
      cases result <;> simp [← hfinds]

end PackageMigration.Archive
