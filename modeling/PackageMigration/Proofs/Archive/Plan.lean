import PackageMigration.Proofs.Archive.Buffering
/-
  The plans of an archive as a function of its entries.

  * `Table.targetOf`, `kindOf`, `converted?`, `newData?`: what is found out about an entry by itself.
  * `planOf`, `plansOf`: the plans of entries behind others.
  * `Scan.place?`: the plan for an entry whose content is converted.
  * `Plannable`: no entry is in the way of a migration.

  Main statements: `scanItems_eq_ok_iff` (what a scan finds), `migrateItems_eq_some_iff`,
  `migrateItems_eq_none_iff`.
-/
namespace PackageMigration

/-- The name of an entry in the migrated archive. -/
def Table.targetOf (t : Table) (e : Container.Entry) : Bytes :=
  (t.route e.name e.data).renamed.getD e.name

namespace Archive

open Migration (Error Event Run)

def kindOf (e : Container.Entry) : EntryKind := EntryKind.of e.name e.data

section
variable (nested : Nested) (t : Table) (label : Bytes)

/-- The new content of an entry, if it has one, or the error of converting it. -/
def converted? (e : Container.Entry) : Except Error (Option Bytes) :=
  convertPayload? nested t (kindOf e) (entryLabel label e.name) e.data

/-- The new content of an entry. -/
def newData? (e : Container.Entry) : Option Bytes :=
  match converted? nested t label e with
  | .ok data => data
  | .error _ => none

/-- The plan for an entry behind others, of which the first to have a name keeps it. -/
def planOf (before : List Container.Entry) (e : Container.Entry) : Plan where
  entry := e
  target := t.targetOf e
  kind := kindOf e
  content :=
    if (before.map t.targetOf).contains (t.targetOf e) then .dropped
    else (hold (.empty .inMemory) (newData? nested t label e)).1

/-- The plans for entries behind others. -/
def plansOf : List Container.Entry → List Container.Entry → List Plan
  | _, [] => []
  | before, e :: es => planOf nested t label before e :: plansOf (before ++ [e]) es

/-- The entries can be planned behind others: each of them can be converted, and has a name of its own
unless it is a directory. -/
inductive Plannable : List Container.Entry → List Container.Entry → Prop
  | nil {before : List Container.Entry} : Plannable before []
  | cons {before es : List Container.Entry} {e : Container.Entry} :
      converted? nested t label e = .ok (newData? nested t label e) →
      (t.targetOf e ∈ before.map t.targetOf → kindOf e = .directory) →
      Plannable (before ++ [e]) es → Plannable before (e :: es)

end

variable {nested : Nested} {t : Table} {label : Bytes}

/-! ## Scanning -/

theorem converted?_eq_ok_iff {e : Container.Entry} {data : Option Bytes} :
    converted? nested t label e = .ok data ↔
      converted? nested t label e = .ok (newData? nested t label e) ∧
        newData? nested t label e = data := by
  unfold newData?
  cases converted? nested t label e with
  | error => simp
  | ok => simp

/-- The names that plans take are those of their entries. -/
def TakenBy (t : Table) (before : List Container.Entry) (plans : List Plan) : Prop :=
  ∀ name, isTaken plans name = true ↔ name ∈ before.map t.targetOf

/-- The scan with the plan for one more entry, once its content is converted. -/
def Scan.place? (t : Table) (label : Bytes) (s : Scan) (e : Container.Entry) (converted : Option Bytes) :
    Except Error Scan :=
  let (content, stash) := hold s.stash converted
  if isTaken s.plans (t.targetOf e) then
    if kindOf e = .directory then .ok ⟨⟨e, t.targetOf e, kindOf e, .dropped⟩ :: s.plans, stash⟩
    else .error (.entryRepeated label (t.targetOf e))
  else .ok ⟨⟨e, t.targetOf e, kindOf e, content⟩ :: s.plans, stash⟩

/-- What archives become matters to a scan only through the contents of the entries. -/
theorem addEntry?_eq_bind (s : Scan) (e : Container.Entry) :
    s.addEntry? nested t label e = converted? nested t label e >>= s.place? t label e := by
  have hconv : convertPayload? nested t (t.route e.name e.data).kind (entryLabel label e.name) e.data =
    converted? nested t label e := rfl
  unfold Scan.addEntry?
  dsimp only
  rw [hconv]
  cases converted? nested t label e <;> rfl

theorem addEntry?_eq_ok_iff {before : List Container.Entry} {plans : List Plan}
    (h : TakenBy t before plans) {e : Container.Entry} {s : Scan} :
    Scan.addEntry? nested t label ⟨plans, .empty .inMemory⟩ e = .ok s ↔
      converted? nested t label e = .ok (newData? nested t label e) ∧
        (t.targetOf e ∈ before.map t.targetOf → kindOf e = .directory) ∧
        s = ⟨planOf nested t label before e :: plans, .empty .inMemory⟩ := by
  have hempty : ∀ data, (hold (.empty .inMemory) data).2 = .empty .inMemory := by
    intro data; cases data <;> rfl
  rw [addEntry?_eq_bind, planOf]
  cases hc : converted? nested t label e with
  | error cause => simp [bind, Except.bind]
  | ok data =>
    have hd : newData? nested t label e = data := (converted?_eq_ok_iff.1 hc).2
    simp only [bind, Except.bind, Scan.place?, hd, hempty, h (t.targetOf e)]
    by_cases hm : t.targetOf e ∈ before.map t.targetOf
    · by_cases hk : kindOf e = .directory <;> simp [hm, hk, eq_comm]
    · simp [hm, eq_comm]

theorem TakenBy.planOf {before : List Container.Entry} {plans : List Plan} (h : TakenBy t before plans)
    (e : Container.Entry) :
    TakenBy t (before ++ [e]) (Archive.planOf nested t label before e :: plans) := by
  intro name
  have hcons : isTaken (Archive.planOf nested t label before e :: plans) name =
      (t.targetOf e == name || isTaken plans name) := rfl
  rw [hcons, Bool.or_eq_true, h name, beq_iff_eq, List.map_append, List.mem_append, Or.comm,
    List.map_singleton, List.mem_singleton, eq_comm]

/-- **The plans that a scan makes, and when it makes any.** -/
theorem scanItems_eq_ok_iff {total done : Nat} {before : List Container.Entry} {plans : List Plan}
    (h : TakenBy t before plans) {items : List Container.Item} {s : Scan} :
    (scanItems nested t label total done ⟨plans, .empty .inMemory⟩ items).result = .ok s ↔
      ∃ es, items = es.map .entry ∧ Plannable nested t label before es ∧
        s = ⟨(plansOf nested t label before es).reverse ++ plans, .empty .inMemory⟩ := by
  induction items generalizing done before plans with
  | nil =>
    rw [scanItems, Run.result_pure, Except.ok.injEq]
    constructor
    · rintro rfl
      exact ⟨[], rfl, .nil, rfl⟩
    · rintro ⟨es, he, -, rfl⟩
      obtain rfl := List.map_eq_nil_iff.1 he.symm
      rfl
  | cons item items ih =>
    simp only [scanItems, Run.result_bind, Run.result_ofExcept, Run.result_report, bind_eq_ok_iff]
    constructor
    · rintro ⟨s', hs', -, -, hs⟩
      cases item with
      | unsupported => cases hs'
      | damaged => cases hs'
      | entry e =>
        obtain ⟨hc, hd, rfl⟩ := (addEntry?_eq_ok_iff h).1 hs'
        obtain ⟨es, rfl, hp, hs⟩ := (ih (h.planOf e)).1 hs
        exact ⟨e :: es, rfl, .cons hc hd hp, by simp [hs, plansOf]⟩
    · rintro ⟨es, he, hp, rfl⟩
      cases hp with
      | nil => cases he
      | @cons _ es e hc hd hp =>
        obtain ⟨rfl, rfl⟩ := List.cons.inj he
        exact ⟨_, (addEntry?_eq_ok_iff h).2 ⟨hc, hd, rfl⟩, (), trivial,
          (ih (h.planOf e)).2 ⟨es, rfl, hp, by simp [plansOf]⟩⟩

/-! ## Whole archives -/

theorem eq_of_map_entry {es es' : List Container.Entry}
    (h : es.map Container.Item.entry = es'.map .entry) : es = es' :=
  List.map_injective_iff.2 (fun _ _ h => Container.Item.entry.inj h) h

variable {mode : BufferMode} {items : List Container.Item}

/-- The plans of an archive, the last one first. -/
def plansOfAll (nested : Nested) (t : Table) (label : Bytes) (es : List Container.Entry) : List Plan :=
  (plansOf nested t label [] es).reverse

theorem finish_result (s : Scan) (t : Table) (label : Bytes) :
    (s.finish t label).result = (verdict? t label s.plans).map fun
      | .unchanged => none
      | .changed manifest => some (s.outputs manifest) := by
  simp only [Scan.finish, Run.result_bind, Run.result_report, Run.result_ofExcept]
  cases verdict? t label s.plans with
  | error => rfl
  | ok verdict => cases verdict <;> rfl

theorem migrateItems_eq_ok_iff {result : Option (List Container.Entry)} :
    (migrateItems nested t mode label items).result = .ok result ↔
      ∃ es, items = es.map .entry ∧ Plannable nested t label [] es ∧
        (Scan.finish ⟨plansOfAll nested t label es, .empty .inMemory⟩ t label).result = .ok result := by
  have h : TakenBy t [] [] := fun name => by simp [isTaken]
  rw [migrateItems_eq_inMemory, migrateItems_eq_finish, Run.result_bind, bind_eq_ok_iff]
  simp only [scanItems_eq_ok_iff h, List.append_nil]
  constructor
  · rintro ⟨_, ⟨es, he, hp, rfl⟩, hr⟩
    exact ⟨es, he, hp, hr⟩
  · rintro ⟨es, he, hp, hr⟩
    exact ⟨_, ⟨es, he, hp, rfl⟩, hr⟩

theorem migrateItems_eq_some_iff {written : List Container.Entry} :
    (migrateItems nested t mode label items).result = .ok (some written) ↔
      ∃ es manifest, items = es.map .entry ∧ Plannable nested t label [] es ∧
        verdict? t label (plansOfAll nested t label es) = .ok (.changed manifest) ∧
        written = Scan.outputs ⟨plansOfAll nested t label es, .empty .inMemory⟩ manifest := by
  simp only [migrateItems_eq_ok_iff, finish_result]
  constructor
  · rintro ⟨es, he, hp, hr⟩
    cases hv : verdict? t label (plansOfAll nested t label es) with
    | error => rw [hv] at hr; cases hr
    | ok verdict =>
      rw [hv] at hr
      cases verdict with
      | unchanged => cases hr
      | changed manifest => cases hr; exact ⟨es, manifest, he, hp, hv, rfl⟩
  · rintro ⟨es, manifest, he, hp, hv, rfl⟩
    exact ⟨es, he, hp, by rw [hv]; rfl⟩

theorem migrateItems_eq_none_iff :
    (migrateItems nested t mode label items).result = .ok none ↔
      ∃ es, items = es.map .entry ∧ Plannable nested t label [] es ∧
        verdict? t label (plansOfAll nested t label es) = .ok .unchanged := by
  simp only [migrateItems_eq_ok_iff, finish_result]
  constructor
  · rintro ⟨es, he, hp, hr⟩
    cases hv : verdict? t label (plansOfAll nested t label es) with
    | error => rw [hv] at hr; cases hr
    | ok verdict =>
      rw [hv] at hr
      cases verdict with
      | unchanged => exact ⟨es, he, hp, hv⟩
      | changed => cases hr
  · rintro ⟨es, he, hp, hv⟩
    exact ⟨es, he, hp, by rw [hv]; rfl⟩

section
variable {format : Container.Format} {data : Bytes}

theorem migrateWith_result (format : Container.Format) (nested : Nested) (t : Table) (mode : BufferMode)
    (label data : Bytes) :
    (migrateWith format nested t mode label data).result =
      match format.read? data with
      | none => .error (.unreadableArchive label)
      | some items => (migrateItems nested t mode label items).result.map (Option.map format.write) := by
  rw [migrateWith, Run.result_bind]
  cases format.read? data with
  | none => rfl
  | some items =>
    simp only [Run.result_report, Run.result_bind]
    cases (migrateItems nested t mode label items).result <;> rfl

theorem migrateWith_eq_some_iff {out : Bytes} :
    (migrateWith format nested t mode label data).result = .ok (some out) ↔
      ∃ items written, format.read? data = some items ∧
        (migrateItems nested t mode label items).result = .ok (some written) ∧
        out = format.write written := by
  rw [migrateWith_result]
  cases format.read? data with
  | none => simp
  | some items =>
    cases h : (migrateItems nested t mode label items).result with
    | error => simp [Except.map, h]
    | ok written => simp [Except.map, h, eq_comm]

theorem migrateWith_eq_none_iff :
    (migrateWith format nested t mode label data).result = .ok none ↔
      ∃ items, format.read? data = some items ∧
        (migrateItems nested t mode label items).result = .ok none := by
  rw [migrateWith_result]
  cases format.read? data with
  | none => simp
  | some items =>
    cases h : (migrateItems nested t mode label items).result with
    | error => simp [Except.map, h]
    | ok written => simp [Except.map, h]

end

end Archive

end PackageMigration
