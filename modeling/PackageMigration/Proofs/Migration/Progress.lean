import PackageMigration.Migration.Basic
import PackageMigration.Proofs.Mapping.Order
import PackageMigration.Proofs.Migration.Run
import PackageMigration.Proofs.Migration.Tree
/-
  What runs report.

  * `Traced`: events with ascending counts of one total, before what is left to do.
  * `walkedNodes`: the nodes that the migration of a tree goes through.

  Main statements: `exists_events_scanItems` and `exists_events_planNodes` (the loops), `execute_traced`.
-/
namespace PackageMigration.Migration

open Container (Item)
open FileSystem (below_of_pairwise)

variable {depth : Nat}

/-- Events that count up to a total: first what is scanned, then the counts, then what is left to do. -/
structure Traced (total : Nat) (counts : List Nat) (events : List Event) : Prop where
  parts : ∃ before after, events = before ++ counts.map (.converting · total) ++ after ∧
    (∀ e ∈ before, e = .scanning) ∧ ∀ e ∈ after, e = .repairingMetadata ∨ e = .writing
  ascending : counts.Pairwise (· < ·)
  bounded : ∀ d ∈ counts, d ≤ total

namespace Traced

variable {total : Nat} {counts : List Nat} {events : List Event}

theorem nil (total : Nat) : Traced total [] [] := ⟨⟨[], [], rfl, nofun, nofun⟩, .nil, nofun⟩

theorem scanning (h : Traced total counts events) : Traced total counts (.scanning :: events) := by
  obtain ⟨before, after, rfl, hbefore, hafter⟩ := h.parts
  exact ⟨⟨.scanning :: before, after, rfl, by simpa using hbefore, hafter⟩, h.ascending, h.bounded⟩

theorem append (h : Traced total counts events) {more : List Event}
    (hmore : ∀ e ∈ more, e = .repairingMetadata ∨ e = .writing) :
    Traced total counts (events ++ more) := by
  obtain ⟨before, after, rfl, hbefore, hafter⟩ := h.parts
  refine ⟨⟨before, after ++ more, by simp, hbefore, ?_⟩, h.ascending, h.bounded⟩
  simpa [or_imp, forall_and] using ⟨hafter, hmore⟩

/-- Some of the counts, up to where a run stopped. -/
theorem of_front {all : List Nat} (h : counts <+: all) (hascending : all.Pairwise (· < ·))
    (hbounded : ∀ d ∈ all, d ≤ total) : Traced total counts (counts.map (.converting · total)) :=
  ⟨⟨[], [], by simp, nofun, nofun⟩, hascending.sublist h.sublist, fun d hd => hbounded d (h.subset hd)⟩

/-- The counts reach the total if it is one of them. -/
theorem getLast?_eq_iff (h : Traced total counts events) :
    counts.getLast? = some total ↔ total ∈ counts := by
  refine ⟨List.mem_of_getLast?, fun hm => ?_⟩
  rcases List.eq_nil_or_concat counts with rfl | ⟨front, last, rfl⟩
  · cases hm
  rw [List.concat_eq_append] at h hm ⊢
  rcases List.mem_append.1 hm with hm | hm
  · have hlt : total < last := (List.pairwise_append.1 h.ascending).2.2 _ hm _ (by simp)
    have hle : last ≤ total := h.bounded last (by simp)
    omega
  · rw [List.mem_singleton.1 hm, List.getLast?_concat]

end Traced

/-- A run that counts up to a total: if it succeeds it has reported all counts. -/
def Counts {α : Type} (total : Nat) (all : List Nat) (r : Run α) : Prop :=
  ∃ counts, Traced total counts r.events ∧ ∀ a, r.result = .ok a → counts = all

namespace Counts

variable {α β : Type} {total : Nat} {all : List Nat} {r : Run α}

theorem fail (e : Error) : Counts total all (Run.fail e : Run α) := ⟨[], .nil total, nofun⟩

theorem bind (h : Counts total all r) {f : α → Run β}
    (hf : ∀ a, ∀ e ∈ (f a).events, e = .repairingMetadata ∨ e = .writing) :
    Counts total all (r >>= f) := by
  obtain ⟨counts, htraced, hall⟩ := h
  cases hr : r.result with
  | error e =>
    rw [Run.bind_of_error hr]
    exact ⟨counts, htraced, nofun⟩
  | ok a =>
    rw [Run.bind_of_ok hr]
    exact ⟨counts, htraced.append (hf a), fun _ _ => hall a hr⟩

/-- What is reported counts, and whether the run succeeds. -/
theorem of_events {r' : Run β} (h : Counts total all r) (hevents : r'.events = r.events)
    (hresult : ∀ b, r'.result = .ok b → ∃ a, r.result = .ok a) : Counts total all r' := by
  obtain ⟨counts, htraced, hall⟩ := h
  refine ⟨counts, hevents ▸ htraced, fun b hb => ?_⟩
  obtain ⟨a, ha⟩ := hresult b hb
  exact hall a ha

theorem scanning (h : Counts total all r) : Counts total all ⟨.scanning :: r.events, r.result⟩ := by
  obtain ⟨counts, htraced, hall⟩ := h
  exact ⟨counts, htraced.scanning, hall⟩

theorem after_scanning {o : Outcome α} (h : Counts total all o.run) :
    Counts total all (o.after [.scanning]).run := h.scanning

/-- A loop that reports the counts one after the other, up to where it stops. -/
theorem of_front {counts : List Nat} (hfront : counts <+: all) (hascending : all.Pairwise (· < ·))
    (hbounded : ∀ d ∈ all, d ≤ total) (hevents : r.events = counts.map (.converting · total))
    (hall : ∀ a, r.result = .ok a → counts = all) : Counts total all r :=
  ⟨counts, hevents ▸ .of_front hfront hascending hbounded, hall⟩

end Counts

/-! ## Archives -/

section
variable (nested : Archive.Nested) (t : Table) (mode : BufferMode) (label : Bytes)

/-- **Every entry of an archive is reported.** -/
theorem exists_events_scanItems (total done : Nat) (s : Archive.Scan) (items : List Item) :
    ∃ counts, counts <+: List.range' (done + 1) items.length ∧
      (Archive.scanItems nested t label total done s items).events =
        counts.map (.converting · total) ∧
      ∀ s', (Archive.scanItems nested t label total done s items).result = .ok s' →
        counts = List.range' (done + 1) items.length := by
  induction items generalizing done s with
  | nil => exact ⟨[], List.prefix_refl _, rfl, fun _ _ => rfl⟩
  | cons item items ih =>
    rw [Archive.scanItems]
    cases hitem : s.addItem? nested t label item with
    | error e => exact ⟨[], List.nil_prefix, rfl, nofun⟩
    | ok s₁ =>
      obtain ⟨counts, hfront, hevents, hall⟩ := ih (done + 1) s₁
      rw [Run.ofExcept_ok_bind, Run.report_bind, hevents, List.length_cons, List.range'_succ]
      exact ⟨(done + 1) :: counts, (List.prefix_cons_inj _).2 hfront, rfl, fun s' hs' => by
        rw [hall s' hs']⟩

theorem counts_migrateItems (items : List Item) :
    Counts items.length (List.range' 1 items.length)
      (Archive.migrateItems nested t mode label items) := by
  obtain ⟨counts, hfront, hevents, hall⟩ :=
    exists_events_scanItems nested t label items.length 0 ⟨[], .empty mode⟩ items
  have hscan := Counts.of_front hfront List.pairwise_lt_range' (fun d hd => by
    rw [List.mem_range'_1] at hd
    omega) hevents hall
  refine hscan.bind fun scan e he => ?_
  rw [Run.report_bind] at he
  rcases List.mem_cons.1 he with rfl | he
  · exact .inl rfl
  rcases Run.mem_events_bind_iff.1 he with he | ⟨verdict, -, he⟩
  · cases he
  cases verdict with
  | unchanged => cases he
  | changed manifest =>
    rcases List.mem_cons.1 he with rfl | he
    · exact .inr rfl
    · rcases Run.mem_events_bind_iff.1 he with he | ⟨entries, -, he⟩ <;> cases he

/-- The last of the counts is the total, unless there is nothing to count. -/
theorem getLast?_range' {n : Nat} (hn : n ≠ 0) : (List.range' 1 n).getLast? = some n := by
  rw [List.getLast?_range', if_neg hn]
  simp

theorem exists_counts_migrate (format : Container.Format) (data : Bytes) (depth : Nat) :
    ∃ total all, Counts total all (Archive.migrate format t mode label data depth) ∧
      (total ≠ 0 → all.getLast? = some total) := by
  unfold Archive.migrate Archive.migrateWith
  rw [Run.report_bind]
  cases format.read? data with
  | none => exact ⟨0, [], (Counts.fail _).scanning, nofun⟩
  | some items =>
    refine ⟨items.length, _,
      (Counts.bind (counts_migrateItems _ t mode label items) fun new e he => ?_).scanning,
      getLast?_range'⟩
    cases he

end

/-! ## Single files -/

theorem exists_counts_file (c : Conversion depth) (path content : Bytes) :
    ∃ total all, Counts total all (c.file path content) ∧ (total ≠ 0 → all.getLast? = some total) := by
  unfold Conversion.file
  dsimp only
  split
  · exact exists_counts_migrate ..
  · refine ⟨1, [0, 1], ?_, fun _ => rfl⟩
    have hascending : [0, 1].Pairwise (· < ·) := by decide
    have hbounded : ∀ d ∈ [0, 1], d ≤ 1 := by decide
    rw [Run.report_bind]
    cases Conversion.convert? c.table _ path content with
    | error e => exact .of_front (⟨[1], rfl⟩ : [0] <+: [0, 1]) hascending hbounded rfl nofun
    | ok new => exact .of_front (List.prefix_refl _) hascending hbounded rfl fun _ _ => rfl

theorem events_perform {α : Type} (edits : List Edit) (answer : α) (fs : FileSystem) :
    (perform edits answer fs).run.events = [] := by
  unfold perform
  split <;> rfl

theorem events_copyUnchanged (source destination : Bytes) (fs : FileSystem) :
    (copyUnchanged source destination fs).run.events = [] := by
  unfold copyUnchanged
  split
  · rfl
  split
  · rfl
  split
  · rfl
  · exact events_perform ..

/-- **The migration of a file reports what the conversion of its content does.** -/
theorem exists_counts_migrateFile (c : Conversion depth) (source destination : Bytes)
    (fs : FileSystem) :
    ∃ total all, Counts total all (migrateFile c source destination fs).run ∧
      (total ≠ 0 → all.getLast? = some total) := by
  have hfail (e : Error) (fs : FileSystem) : ∃ total all,
      Counts total all (Outcome.fail e fs : Outcome Bool).run ∧ (total ≠ 0 → all.getLast? = some total) :=
    ⟨0, [], .fail e, nofun⟩
  unfold migrateFile
  split
  · exact hfail ..
  split
  · exact hfail ..
  next content _ =>
    split
    · exact hfail ..
    obtain ⟨total, all, hcounts, hlast⟩ := exists_counts_file c source content
    refine ⟨total, all, ?_, hlast⟩
    dsimp only
    split
    next e he => exact hcounts.of_events rfl nofun
    next new hnew =>
      refine hcounts.of_events ?_ fun _ _ => ⟨_, hnew⟩
      rw [Outcome.after, events_perform, List.append_nil]
    next hnone =>
      refine hcounts.of_events ?_ fun _ _ => ⟨_, hnone⟩
      rw [events_copyUnchanged, List.append_nil]

/-! ## Trees -/

/-- The counts of the files among nodes, the first of which is counted behind `done` others. -/
def fileCounts : Nat → List (Location × Node) → List Nat
  | _, [] => []
  | done, (_, .directory) :: nodes => fileCounts (done + 1) nodes
  | done, (_, .file _) :: nodes => (done + 1) :: fileCounts (done + 1) nodes

theorem mem_fileCounts_iff {done d : Nat} {nodes : List (Location × Node)} :
    d ∈ fileCounts done nodes ↔ ∃ i l content, d = done + i + 1 ∧ nodes[i]? = some (l, .file content) := by
  -- a node is the first one, or among the others
  have hcons {p : Nat → Prop} : (∃ i, p i) ↔ p 0 ∨ ∃ i, p (i + 1) :=
    ⟨fun ⟨i, hi⟩ => by cases i <;> [exact .inl hi; exact .inr ⟨_, hi⟩],
      fun h => h.elim (⟨0, ·⟩) fun ⟨i, hi⟩ => ⟨i + 1, hi⟩⟩
  induction nodes generalizing done with
  | nil => simp [fileCounts]
  | cons n nodes ih =>
    have hnext : ∀ i, done + 1 + i + 1 = done + (i + 1) + 1 := by omega
    rw [hcons]
    obtain ⟨l, content | _⟩ := n
    · simp [fileCounts, ih, hnext]
    · simp [fileCounts, ih, hnext]

theorem pairwise_fileCounts (done : Nat) (nodes : List (Location × Node)) :
    (fileCounts done nodes).Pairwise (· < ·) := by
  induction nodes generalizing done with
  | nil => exact .nil
  | cons n nodes ih =>
    obtain ⟨l, content | _⟩ := n
    · refine List.pairwise_cons.2 ⟨fun d hd => ?_, ih (done + 1)⟩
      obtain ⟨i, -, -, rfl, -⟩ := mem_fileCounts_iff.1 hd
      omega
    · exact ih (done + 1)

theorem le_of_mem_fileCounts {done d : Nat} {nodes : List (Location × Node)}
    (h : d ∈ fileCounts done nodes) : d ≤ done + nodes.length := by
  obtain ⟨i, l, content, rfl, hi⟩ := mem_fileCounts_iff.1 h
  have := (List.getElem?_eq_some_iff.1 hi).1
  omega

theorem events_planFile (c : Conversion depth) (m : Transfer) (l : Location) (renamed : Option Bytes)
    (target content : Bytes) : (planFile c m l renamed target content).events = [] := by
  unfold planFile
  cases Path.isUsable l.path with
  | false => rfl
  | true =>
    rw [Bool.not_true, if_neg Bool.false_ne_true]
    cases (c.file l.path content).result with
    | error e => rfl
    | ok new =>
      rw [Run.ofExcept_ok_bind]
      dsimp only
      split <;> rfl

/-- An answer that is put in another form. -/
theorem events_bind_pure {α β : Type} (r : Run α) (f : α → β) :
    (r >>= fun a => pure (f a)).events = r.events := by
  cases hr : r.result with
  | error e => rw [Run.bind_of_error hr]
  | ok a => rw [Run.bind_of_ok hr, Run.events_pure, List.append_nil]

theorem exists_of_result_bind {α β : Type} {r : Run α} {f : α → Run β} {b : β}
    (h : (r >>= f).result = .ok b) : ∃ a, r.result = .ok a := by
  rw [Run.result_bind, bind_eq_ok_iff] at h
  obtain ⟨a, ha, -⟩ := h
  exact ⟨a, ha⟩

/-- **Every file of a tree is reported, and no directory.** -/
theorem exists_events_planNodes (c : Conversion depth) (m : Transfer) (total done : Nat)
    (taken : List Bytes) (nodes : List (Location × Node)) :
    ∃ counts, counts <+: fileCounts done nodes ∧
      (planNodes c m total done taken nodes).events = counts.map (.converting · total) ∧
      ∀ plan, (planNodes c m total done taken nodes).result = .ok plan →
        counts = fileCounts done nodes := by
  induction nodes generalizing done taken with
  | nil => exact ⟨[], List.prefix_refl _, rfl, fun _ _ => rfl⟩
  | cons n nodes ih =>
    obtain ⟨l, content | _⟩ := n
    · rw [planNodes_file, fileCounts]
      split
      · exact ⟨[], List.nil_prefix, rfl, nofun⟩
      generalize hf : planFile c m l _ _ content = file
      have hfile : file.events = [] := hf ▸ events_planFile ..
      cases hr : file.result with
      | error e =>
        rw [Run.bind_of_error hr, hfile]
        exact ⟨[], List.nil_prefix, rfl, nofun⟩
      | ok f =>
        obtain ⟨counts, hfront, hevents, hall⟩ := ih (done + 1) (_ :: taken)
        rw [Run.bind_of_ok hr, hfile, List.nil_append]
        refine ⟨(done + 1) :: counts, (List.prefix_cons_inj _).2 hfront, ?_, fun plan hplan => ?_⟩
        · rw [Run.report_bind, events_bind_pure, hevents, List.map_cons]
        · rw [Run.report_bind] at hplan
          obtain ⟨plan', hplan'⟩ := exists_of_result_bind hplan
          rw [hall plan' hplan']
    · obtain ⟨counts, hfront, hevents, hall⟩ := ih (done + 1) taken
      rw [planNodes_directory, fileCounts]
      refine ⟨counts, hfront, (events_bind_pure ..).trans hevents, fun plan hplan => ?_⟩
      obtain ⟨plan', hplan'⟩ := exists_of_result_bind hplan
      exact hall plan' hplan'

theorem counts_planTree (c : Conversion depth) (m : Transfer) (fs : FileSystem) :
    Counts (m.nodes fs).length (fileCounts 0 (m.nodes fs)) (planTree c m fs) := by
  unfold planTree
  dsimp only
  split
  · exact .fail _
  split
  · obtain ⟨counts, hfront, hevents, hall⟩ :=
      exists_events_planNodes c m (m.nodes fs).length 0 [] (m.nodes fs)
    refine .of_front hfront (pairwise_fileCounts _ _) (fun d hd => ?_) hevents hall
    simpa using le_of_mem_fileCounts hd
  · exact .fail _

/-- The nodes that the migration of a tree goes through. -/
def walkedNodes (source destination : Bytes) (fs : FileSystem) : List (Location × Node) :=
  match transfer? source destination (fs.makeDirectories destination).1 with
  | .error _ => []
  | .ok m => m.nodes (fs.makeDirectories destination).1

/-- **The migration of a tree counts all nodes, and reports the files.** -/
theorem counts_migrateDirectory (c : Conversion depth) (source destination : Bytes) (fs : FileSystem) :
    Counts (walkedNodes source destination fs).length (fileCounts 0 (walkedNodes source destination fs))
      (migrateDirectory c source destination fs).run := by
  unfold migrateDirectory walkedNodes
  rw [applyAll_makeDirectories]
  refine .after_scanning ?_
  obtain ⟨made, _ | _⟩ := fs.makeDirectories destination
  · exact .fail _
  show Counts _ _ (migrateTree c source destination _ made).run
  unfold migrateTree
  cases transfer? source destination made with
  | error e => exact .fail e
  | ok m =>
    dsimp only
    obtain ⟨counts, htraced, hall⟩ := counts_planTree c m made
    split
    · exact ⟨counts, htraced, nofun⟩
    next plan hplan =>
      refine ⟨counts, ?_, fun _ _ => hall plan hplan⟩
      rw [Outcome.after, events_perform, List.append_nil]
      exact htraced.append (by simp)

/-- A run for which there is a plan reports the planning, and that the changes are made. -/
theorem events_migrateDirectory_of_plan {c : Conversion depth} {m : Transfer}
    {source destination : Bytes}
    {fs made : FileSystem} {plan : TreePlan} (hmade : fs.makeDirectories destination = (made, true))
    (htransfer : transfer? source destination made = .ok m)
    (hplan : (planTree c m made).result = .ok plan) :
    (migrateDirectory c source destination fs).run.events =
      .scanning :: ((planTree c m made).events ++ [.writing]) := by
  unfold migrateDirectory migrateTree
  rw [applyAll_makeDirectories, hmade]
  simp [htransfer, hplan, Outcome.after, events_perform]

/-- The last node is the one that is counted up to the total. -/
theorem exists_getElem?_iff_getLast? {nodes : List (Location × Node)} :
    (∃ i l content, nodes.length = i + 1 ∧ nodes[i]? = some (l, .file content)) ↔
      ∃ l content, nodes.getLast? = some (l, .file content) := by
  rw [List.getLast?_eq_getElem?]
  constructor
  · rintro ⟨i, l, content, hlength, hi⟩
    exact ⟨l, content, by rw [hlength]; simpa using hi⟩
  · rintro ⟨l, content, hlast⟩
    have := (List.getElem?_eq_some_iff.1 hlast).1
    exact ⟨nodes.length - 1, l, content, by omega, hlast⟩

/-! ## Migrations -/

/-- What a run that succeeds has counted: all of an archive or another file; of a tree the files only,
though directories belong to the total. -/
structure Reached (source destination : Bytes) (fs : FileSystem) (total : Nat) (counts : List Nat) :
    Prop where
  file : ∀ content, fs.find? source = some (.file content) → total ≠ 0 → counts.getLast? = some total
  tree : fs.find? source = some .directory →
    total = (walkedNodes source destination fs).length ∧
    ∀ d, d ∈ counts ↔
      ∃ i l content, d = i + 1 ∧ (walkedNodes source destination fs)[i]? = some (l, .file content)

theorem exists_counts_transform (m : Migration) (source destination : Bytes) (fs : FileSystem) :
    ∃ total all, Counts total all (m.transform source destination fs).run ∧
      Reached source destination fs total all := by
  unfold transform
  cases hfind : fs.find? source with
  | none => exact ⟨0, [], .fail _, by simp [hfind], by simp [hfind]⟩
  | some node =>
    cases node with
    | directory =>
      refine ⟨_, _, counts_migrateDirectory m.conversion source destination fs, by simp [hfind],
        fun _ => ⟨rfl, fun d => ?_⟩⟩
      rw [mem_fileCounts_iff]
      simp
    | file content =>
      obtain ⟨total, all, hcounts, hlast⟩ :=
        exists_counts_migrateFile m.conversion source destination fs
      exact ⟨total, all, hcounts, fun _ _ => hlast, by simp [hfind]⟩

theorem execute_of_ok {m : Migration} {source destination : Bytes} {fs : FileSystem} {converted : Bool}
    (hcompleted : m.completed = none) (hs : m.source = some source)
    (hd : m.destination = some destination)
    (h : (m.transform source destination fs).run.result = .ok converted) :
    (m.execute fs).2.run = ⟨(m.transform source destination fs).run.events ++ [.done], .ok ()⟩ := by
  unfold execute
  rw [hcompleted, hs, hd]
  dsimp only
  rw [h]

/-- **What a run reports**: the counts ascend up to one total, repairing metadata and writing come
behind all of them, and being done comes once and last, if the run succeeds. The counts reach the
total then, but for a tree that ends in a directory: directories are in the total and not reported. -/
theorem execute_traced (m : Migration) (fs : FileSystem) :
    let run := (m.execute fs).2.run
    ∃ total counts front, Traced total counts front ∧
      run.events = front ++ (if run.result.isOk then [.done] else []) ∧
      ∀ source destination, m.source = some source → m.destination = some destination →
        run.result.isOk → Reached source destination fs total counts ∧
          (total ≠ 0 → (counts.getLast? = some total ↔ fs.find? source = some .directory →
            ∃ l content, (walkedNodes source destination fs).getLast? = some (l, .file content))) := by
  unfold execute
  split
  · exact ⟨0, [], [], .nil 0, rfl, nofun⟩
  next source destination _ hsource hdestination =>
    obtain ⟨total, all, ⟨counts, htraced, hall⟩, hreached⟩ :=
      exists_counts_transform m source destination fs
    dsimp only
    split
    next e he => exact ⟨total, counts, _, htraced, (List.append_nil _).symm, nofun⟩
    next converted hconverted =>
      obtain rfl := hall converted hconverted
      refine ⟨total, counts, _, htraced, rfl, fun source' destination' hs hd _ => ?_⟩
      obtain rfl := Option.some.inj (hsource.symm.trans hs)
      obtain rfl := Option.some.inj (hdestination.symm.trans hd)
      refine ⟨hreached, fun htotal => ?_⟩
      cases hfind : fs.find? source with
      | none =>
        rw [transform, hfind] at hconverted
        cases hconverted
      | some node =>
        cases node with
        | file content => exact iff_of_true (hreached.file content hfind htotal) nofun
        | directory =>
          obtain ⟨rfl, hmem⟩ := hreached.tree hfind
          rw [htraced.getLast?_eq_iff, hmem, exists_getElem?_iff_getLast?]
          simp
  · exact ⟨0, [], [], .nil 0, rfl, nofun⟩

/-- A tree that ends in a directory. -/
def endingTree : FileSystem where
  nodes := [([bytes "s"], .directory), ([bytes "s", bytes "a.txt"], .file (bytes "1")),
    ([bytes "s", bytes "b"], .directory)]
  here := []

/-- A migration that succeeds does not reach the total if it ends in a directory. -/
theorem execute_not_reached :
    ¬ ∀ (m : Migration) (fs : FileSystem), fs.WellFormed → (m.execute fs).2.run.result = .ok () →
      ∀ front d total rest, (m.execute fs).2.run.events = front ++ .converting d total :: rest →
        (∀ e ∈ rest, e.stage ≠ "Converting") → total ≠ 0 → d = total := by
  intro h
  have hmade : endingTree.makeDirectories (bytes "d") =
      (endingTree.set [bytes "d"] .directory, true) := by
    decide +kernel
  have htransfer : transfer? (bytes "s") (bytes "d") (endingTree.set [bytes "d"] .directory) =
      .ok ⟨bytes "s", [bytes "s"], [bytes "d"]⟩ := by
    decide +kernel
  obtain ⟨hevents, hplan⟩ : (planTree (⟨Container.zip, Profile.tomcat.table, .spooled⟩ : Conversion)
        ⟨bytes "s", [bytes "s"], [bytes "d"]⟩ (endingTree.set [bytes "d"] .directory)).events =
        [.converting 1 2] ∧
      (planTree (⟨Container.zip, Profile.tomcat.table, .spooled⟩ : Conversion)
        ⟨bytes "s", [bytes "s"], [bytes "d"]⟩ (endingTree.set [bytes "d"] .directory)).result =
        .ok ⟨[bytes "/d/b"], [⟨bytes "/s/a.txt", bytes "/d/a.txt", false, some (bytes "1")⟩], false⟩ := by
    unfold planTree Transfer.nodes
    rw [below_of_pairwise (by decide +kernel), Profile.table_eq_orderedTable]
    decide +kernel
  have hperform : (perform (TreePlan.edits false ⟨[bytes "/d/b"],
      [⟨bytes "/s/a.txt", bytes "/d/a.txt", false, some (bytes "1")⟩], false⟩) false
      (endingTree.set [bytes "d"] .directory)).run.result = .ok false := by
    decide +kernel
  have hrun := events_migrateDirectory_of_plan hmade htransfer hplan
  obtain ⟨hresult, -⟩ := migrateDirectory_of_plan hmade htransfer hplan
  rw [hevents] at hrun
  have hfind : endingTree.find? (bytes "s") = some .directory := by decide +kernel
  let m := { Migration.new with source := some (bytes "s"), destination := some (bytes "d") }
  have htransform : m.transform (bytes "s") (bytes "d") endingTree =
      migrateDirectory (⟨Container.zip, Profile.tomcat.table, .spooled⟩ : Conversion) (bytes "s")
        (bytes "d") endingTree := by
    rw [transform, hfind]
    rfl
  have hexecute : (m.execute endingTree).2.run =
      ⟨[.scanning, .converting 1 2, .writing, .done], .ok ()⟩ := by
    have hok : (m.transform (bytes "s") (bytes "d") endingTree).run.result = .ok false := by
      rw [htransform, hresult]
      exact hperform
    rw [execute_of_ok rfl rfl rfl hok, htransform, hrun]
    rfl
  exact absurd (h m endingTree (by decide +kernel) (by rw [hexecute]) [.scanning] 1 2
    [.writing, .done] (by rw [hexecute]; rfl) (by decide) (by decide)) (by decide)

end PackageMigration.Migration
