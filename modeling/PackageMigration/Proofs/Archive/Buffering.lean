import Mathlib.Data.List.Basic
import PackageMigration.Archive.Migrate
import PackageMigration.Proofs.Archive.Stash
import PackageMigration.Proofs.Migration.Run
/-
  Where converted payloads wait makes no difference.

  * `Content.inMemory`, `Plan.inMemory`, `Scan.inMemory`: the same with every payload in memory.
  * `Scan.Sound`: every converted payload can be got.

  Main statements: `migrateItems_eq_inMemory` (an archive is migrated as if its payloads waited in
  memory), `migrateWith_eq_inMemory`.
-/
namespace PackageMigration.Archive

open Migration (Error Event Run)

/-- The content with its payload in memory. -/
def Content.inMemory (stash : Stash) : Content → Content
  | .converted held => .converted (.inMemory ((stash.content? held).getD []))
  | c => c

/-- The payload of the content, if it is converted, can be got. -/
def Content.IsHeld (stash : Stash) : Content → Prop
  | .converted held => (stash.content? held).isSome
  | _ => True

/-- The plan with its payload in memory. -/
def Plan.inMemory (stash : Stash) (p : Plan) : Plan := { p with content := p.content.inMemory stash }

/-- The scan with its payloads in memory. -/
def Scan.inMemory (s : Scan) : Scan := ⟨s.plans.map (Plan.inMemory s.stash), .empty .inMemory⟩

/-- Every converted payload can be got. -/
structure Scan.Sound (s : Scan) : Prop where
  stash : s.stash.Sound
  held : ∀ p ∈ s.plans, p.content.IsHeld s.stash

/-! ## Scanning -/

theorem isConverted_inMemory (stash : Stash) (c : Content) :
    (c.inMemory stash).isConverted = c.isConverted := by
  cases c <;> rfl

/-- A payload more does not change the contents before. -/
theorem inMemory_put {stash : Stash} (hs : stash.Sound) {c : Content} (hc : c.IsHeld stash)
    (payload : Bytes) :
    c.IsHeld (stash.put payload).2 ∧ c.inMemory (stash.put payload).2 = c.inMemory stash := by
  cases c with
  | kept => exact ⟨trivial, rfl⟩
  | dropped => exact ⟨trivial, rfl⟩
  | converted held =>
    obtain ⟨q, hq⟩ := Option.isSome_iff_exists.1 hc
    have hq' := hs.content?_put_of_some hq payload
    exact ⟨by simp [Content.IsHeld, hq'], by simp [Content.inMemory, hq, hq']⟩

/-- What is put away for an entry, and what becomes of the entries before. -/
theorem hold_inMemory {stash : Stash} (hs : stash.Sound) (converted : Option Bytes) :
    (hold stash converted).2.Sound ∧
      (hold stash converted).1.IsHeld (hold stash converted).2 ∧
      (hold stash converted).1.inMemory (hold stash converted).2 =
        (hold (.empty .inMemory) converted).1 ∧
      (hold (.empty .inMemory) converted).2 = .empty .inMemory ∧
      ∀ c : Content, c.IsHeld stash →
        c.IsHeld (hold stash converted).2 ∧
          c.inMemory (hold stash converted).2 = c.inMemory stash := by
  cases converted with
  | none => exact ⟨hs, trivial, rfl, rfl, fun c hc => ⟨hc, rfl⟩⟩
  | some payload =>
    have hself := hs.content?_put_self payload
    refine ⟨hs.put payload, ?_, ?_, rfl, fun c hc => inMemory_put hs hc payload⟩
    · simp [hold, Content.IsHeld, hself]
    · rw [hold, Content.inMemory, hself]; rfl

theorem isTaken_inMemory (stash : Stash) (plans : List Plan) (name : Bytes) :
    isTaken (plans.map (Plan.inMemory stash)) name = isTaken plans name := by
  rw [isTaken, List.any_map]
  rfl

namespace Scan

variable {nested : Nested} {t : Table} {label : Bytes} {s : Scan}

/-- The next entry is planned in the same way. -/
theorem addEntry?_inMemory (hs : s.Sound) (e : Container.Entry) :
    s.inMemory.addEntry? nested t label e = (s.addEntry? nested t label e).map Scan.inMemory ∧
      ∀ s', s.addEntry? nested t label e = .ok s' → s'.Sound := by
  obtain ⟨plans, stash⟩ := s
  obtain ⟨hstash, hheld⟩ := hs
  unfold addEntry?
  dsimp only [Scan.inMemory]
  cases convertPayload? nested t (t.route e.name e.data).kind (entryLabel label e.name) e.data with
  | error cause => exact ⟨rfl, nofun⟩
  | ok converted =>
    obtain ⟨hsound, hself, heq, hempty, hold'⟩ := hold_inMemory hstash converted
    have hplans : plans.map (Plan.inMemory (hold stash converted).2) = plans.map (Plan.inMemory stash) :=
      List.map_congr_left fun p hp => by rw [Plan.inMemory, (hold' _ (hheld p hp)).2]; rfl
    dsimp only
    rw [isTaken_inMemory]
    split
    · split
      · refine ⟨?_, ?_⟩
        · simp [Except.map, Scan.inMemory, Plan.inMemory, Content.inMemory, hplans, hempty]
        · rintro _ ⟨⟩
          exact ⟨hsound, List.forall_mem_cons.2 ⟨trivial, fun p hp => (hold' _ (hheld p hp)).1⟩⟩
      · exact ⟨rfl, nofun⟩
    · refine ⟨?_, ?_⟩
      · simp [Except.map, Scan.inMemory, Plan.inMemory, hplans, hempty, heq]
      · rintro _ ⟨⟩
        exact ⟨hsound, List.forall_mem_cons.2 ⟨hself, fun p hp => (hold' _ (hheld p hp)).1⟩⟩

theorem addItem?_inMemory (hs : s.Sound) (item : Container.Item) :
    s.inMemory.addItem? nested t label item = (s.addItem? nested t label item).map Scan.inMemory ∧
      ∀ s', s.addItem? nested t label item = .ok s' → s'.Sound := by
  cases item with
  | unsupported => exact ⟨rfl, nofun⟩
  | damaged => exact ⟨rfl, nofun⟩
  | entry e => exact addEntry?_inMemory hs e

end Scan

/-- The entries are planned in the same way, with the same progress. -/
theorem scanItems_inMemory (nested : Nested) (t : Table) (label : Bytes) (total done : Nat) {s : Scan}
    (hs : s.Sound) (items : List Container.Item) :
    scanItems nested t label total done s.inMemory items =
      ⟨(scanItems nested t label total done s items).events,
        (scanItems nested t label total done s items).result.map Scan.inMemory⟩ ∧
      ∀ s', (scanItems nested t label total done s items).result = .ok s' → s'.Sound := by
  induction items generalizing done s with
  | nil =>
    refine ⟨rfl, ?_⟩
    rintro _ ⟨⟩
    exact hs
  | cons item items ih =>
    obtain ⟨heq, hsound⟩ := @Scan.addItem?_inMemory nested t label s hs item
    simp only [scanItems, heq]
    cases hadd : s.addItem? nested t label item with
    | error e => exact ⟨rfl, nofun⟩
    | ok s' =>
      obtain ⟨hrun, hnext⟩ := ih (done + 1) (hsound s' hadd)
      simp only [Except.map, Run.ofExcept_ok_bind, Run.report_bind, hrun]
      exact ⟨trivial, hnext⟩

/-! ## Writing -/

/-- Contents are compared by whether they are converted. -/
theorem repairOf_inMemory (stash : Stash) (plans : List Plan) :
    repairOf (plans.map (Plan.inMemory stash)) = repairOf plans := by
  simp only [repairOf, List.any_map, List.find?_map, Option.map_map]
  congr 1
  refine funext fun name => List.any_congr rfl fun p => ?_
  simp only [Function.comp, Plan.inMemory, isConverted_inMemory]

theorem verdict?_inMemory (stash : Stash) (t : Table) (label : Bytes) (plans : List Plan) :
    verdict? t label (plans.map (Plan.inMemory stash)) = verdict? t label plans := by
  have hany : anyConverted (plans.map (Plan.inMemory stash)) = anyConverted plans := by
    rw [anyConverted, List.any_map]
    refine List.any_congr rfl fun p => ?_
    simp only [Function.comp, Plan.inMemory, isConverted_inMemory]
    rfl
  have hrep : repairedManifest (plans.map (Plan.inMemory stash)) = repairedManifest plans := by
    funext m
    rw [repairedManifest, repairOf_inMemory]; rfl
  have hfind : (plans.map (Plan.inMemory stash)).find? (fun p => p.kind == .manifest) =
      (plans.find? fun p => p.kind == .manifest).map (Plan.inMemory stash) := by
    rw [List.find?_map]; rfl
  unfold verdict?
  rw [hany, hrep, hfind]
  cases plans.find? fun p => p.kind == .manifest <;> rfl

/-- The entry that a plan is written as, unless it is left out. -/
def Plan.output? (stash : Stash) (p : Plan) : Option Container.Entry :=
  match p.content with
  | .dropped => none
  | .kept => some (p.writtenEntry p.entry.data)
  | .converted held => (stash.content? held).map p.writtenEntry

theorem output?_inMemory {stash : Stash} {p : Plan} (h : p.content.IsHeld stash) (stash' : Stash) :
    (p.inMemory stash).output? stash' = p.output? stash := by
  obtain ⟨entry, target, kind, content⟩ := p
  cases content with
  | kept => rfl
  | dropped => rfl
  | converted held =>
    obtain ⟨q, hq⟩ := Option.isSome_iff_exists.1 h
    simp only [Plan.output?, Plan.inMemory, Content.inMemory, hq]
    rfl

/-- Entries are written one for each plan, as far as it is not left out. -/
theorem written?_eq_ok {stash : Stash} {plans : List Plan} (label : Bytes)
    (h : ∀ p ∈ plans, p.content.IsHeld stash) :
    written? label stash plans = .ok (plans.filterMap (Plan.output? stash)) := by
  induction plans generalizing stash with
  | nil => rfl
  | cons p plans ih =>
    obtain ⟨hp, hps⟩ := List.forall_mem_cons.1 h
    have hcons : ∀ e, p.output? stash = some e →
        (p :: plans).filterMap (Plan.output? stash) = e :: plans.filterMap (Plan.output? stash) :=
      fun e he => List.filterMap_cons_some he
    rw [written?]
    cases hc : p.content with
    | dropped => rw [List.filterMap_cons_none (by rw [Plan.output?, hc])]; exact ih hps
    | kept => rw [hcons _ (by rw [Plan.output?, hc]), ih hps]; rfl
    | converted held =>
      rw [hc] at hp
      obtain ⟨q, hq⟩ := Option.isSome_iff_exists.1 hp
      obtain ⟨stash', hget, hsame⟩ := Stash.get?_of_content? hq
      have hout : Plan.output? stash' = Plan.output? stash := by
        funext p; simp only [Plan.output?, hsame]
      have hheld : ∀ p ∈ plans, p.content.IsHeld stash' := by
        intro p hp
        have := hps p hp
        cases hc : p.content <;> simp_all [Content.IsHeld]
      rw [hcons _ (by rw [Plan.output?, hc]; simp [hq]; rfl)]
      simp only [hget, ih hheld, hout]
      rfl

theorem isHeld_withManifest {stash : Stash} (manifest : Bytes) {plans : List Plan}
    (h : ∀ p ∈ plans, p.content.IsHeld stash) :
    ∀ p ∈ withManifest manifest plans, p.content.IsHeld stash := by
  induction plans with
  | nil => exact h
  | cons p plans ih =>
    obtain ⟨hp, hps⟩ := List.forall_mem_cons.1 h
    rw [withManifest]
    split
    · exact List.forall_mem_cons.2 ⟨rfl, hps⟩
    · exact List.forall_mem_cons.2 ⟨hp, ih hps⟩

theorem isHeld_withMetadata {stash : Stash} (manifest : Option Bytes) {plans : List Plan}
    (h : ∀ p ∈ plans, p.content.IsHeld stash) :
    ∀ p ∈ withMetadata manifest plans, p.content.IsHeld stash := by
  have hs : ∀ p ∈ plans.map withoutSignature, p.content.IsHeld stash := by
    intro q hq
    obtain ⟨p, hp, rfl⟩ := List.mem_map.1 hq
    unfold withoutSignature
    split
    · trivial
    · exact h p hp
  cases manifest with
  | none => exact hs
  | some manifest => exact isHeld_withManifest manifest hs

theorem withManifest_inMemory (stash : Stash) (manifest : Bytes) (plans : List Plan) :
    withManifest manifest (plans.map (Plan.inMemory stash)) =
      (withManifest manifest plans).map (Plan.inMemory stash) := by
  induction plans with
  | nil => rfl
  | cons p plans ih =>
    simp only [List.map_cons, withManifest, ih]
    split
    next h => rw [if_pos (show p.kind = .manifest from h)]; rfl
    next h => rw [if_neg (show ¬ p.kind = .manifest from h)]; rfl

theorem withMetadata_inMemory (stash : Stash) (manifest : Option Bytes) (plans : List Plan) :
    withMetadata manifest (plans.map (Plan.inMemory stash)) =
      (withMetadata manifest plans).map (Plan.inMemory stash) := by
  have hs : (plans.map (Plan.inMemory stash)).map withoutSignature =
      (plans.map withoutSignature).map (Plan.inMemory stash) := by
    rw [List.map_map, List.map_map]
    refine List.map_congr_left fun p _ => ?_
    by_cases h : p.kind = .signature <;>
      simp [withoutSignature, Plan.inMemory, Content.inMemory, h]
  cases manifest with
  | none => exact hs
  | some manifest => rw [withMetadata, hs]; exact withManifest_inMemory stash manifest _

theorem Scan.Sound.start (mode : BufferMode) : Scan.Sound ⟨[], .empty mode⟩ :=
  ⟨Stash.sound_empty mode, nofun⟩

/-- The entries that are written once a scan is over. -/
def Scan.outputs (s : Scan) (manifest : Option Bytes) : List Container.Entry :=
  (withMetadata manifest s.plans).reverse.filterMap (Plan.output? s.stash)

theorem Scan.Sound.written? {s : Scan} (hs : s.Sound) (label : Bytes) (manifest : Option Bytes) :
    Archive.written? label s.stash (withMetadata manifest s.plans).reverse =
      .ok (s.outputs manifest) :=
  written?_eq_ok label fun p hp => isHeld_withMetadata manifest hs.held p (List.mem_reverse.1 hp)

theorem Scan.Sound.outputs_inMemory {s : Scan} (hs : s.Sound) (manifest : Option Bytes) :
    s.inMemory.outputs manifest = s.outputs manifest := by
  rw [Scan.outputs, Scan.outputs, Scan.inMemory, withMetadata_inMemory, ← List.map_reverse,
    List.filterMap_map]
  refine List.filterMap_congr fun p hp => output?_inMemory ?_ _
  exact isHeld_withMetadata manifest hs.held p (List.mem_reverse.1 hp)

/-- How a migration goes on when all entries are planned. -/
def Scan.finish (s : Scan) (t : Table) (label : Bytes) : Run (Option (List Container.Entry)) := do
  Run.report .repairingMetadata
  match ← Run.ofExcept (verdict? t label s.plans) with
  | .unchanged => return none
  | .changed manifest =>
    Run.report .writing
    return some (s.outputs manifest)

theorem migrateItems_eq_finish (nested : Nested) (t : Table) (mode : BufferMode) (label : Bytes)
    (items : List Container.Item) :
    migrateItems nested t mode label items =
      scanItems nested t label items.length 0 ⟨[], .empty mode⟩ items >>= fun s => s.finish t label := by
  have hsound := (scanItems_inMemory nested t label items.length 0 (Scan.Sound.start mode) items).2
  rw [migrateItems]
  cases hs : (scanItems nested t label items.length 0 ⟨[], .empty mode⟩ items).result with
  | error e => rw [Run.bind_of_error hs, Run.bind_of_error hs]
  | ok s =>
    rw [Run.bind_of_ok hs, Run.bind_of_ok hs]
    simp only [(hsound s hs).written?]
    rfl

theorem Scan.Sound.finish_inMemory {s : Scan} (hs : s.Sound) (t : Table) (label : Bytes) :
    s.inMemory.finish t label = s.finish t label := by
  rw [Scan.finish, Scan.finish, show s.inMemory.plans = s.plans.map (Plan.inMemory s.stash) from rfl,
    verdict?_inMemory]
  simp only [hs.outputs_inMemory]

/-- **An archive is migrated as if its converted payloads waited in memory**, with the same
progress. -/
theorem migrateItems_eq_inMemory (nested : Nested) (t : Table) (mode : BufferMode) (label : Bytes)
    (items : List Container.Item) :
    migrateItems nested t mode label items = migrateItems nested t .inMemory label items := by
  obtain ⟨hrun, hsound⟩ :=
    scanItems_inMemory nested t label items.length 0 (Scan.Sound.start mode) items
  have hstart : Scan.inMemory ⟨[], .empty mode⟩ = ⟨[], .empty .inMemory⟩ := rfl
  rw [migrateItems_eq_finish, migrateItems_eq_finish, ← hstart, hrun]
  cases hs : (scanItems nested t label items.length 0 ⟨[], .empty mode⟩ items).result with
  | error e => rw [Run.bind_of_error hs]; rfl
  | ok s =>
    rw [Run.bind_of_ok hs, ← (hsound s hs).finish_inMemory]
    rfl

theorem migrateWith_eq_inMemory (format : Container.Format) (nested : Nested) (t : Table)
    (mode : BufferMode) (label data : Bytes) :
    migrateWith format nested t mode label data = migrateWith format nested t .inMemory label data := by
  rw [migrateWith, migrateWith]
  simp only [migrateItems_eq_inMemory nested t mode]

end PackageMigration.Archive
