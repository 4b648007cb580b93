import Mathlib.Data.Set.Finite.Lemmas
import Mathlib.Order.WellFounded
import PackageMigration.Profile
import PackageMigration.Proofs.Archive.Label
import PackageMigration.Proofs.Container.Stored
/-
  Archives in one another.

  * `nestedEntries`: the entries of a container that are migrated as archives.
  * `Nests`, `Endless`: a container in another one; a chain of them without end.
  * `EndsWithin`: more depth than this changes nothing for a container.
  * `selfNested`: a container whose only entry is the container.

  Main statements: `exists_endsWithin` (depth is enough where no endless chain starts),
  `exists_growing` (where such a chain grows), `migrateWithin?_ends`.
-/
namespace PackageMigration.Archive

open Migration (Run)

/-- The entries of a container that are archives themselves. -/
def nestedEntries (format : Container.Format) (data : Bytes) : List Container.Entry :=
  ((format.read? data).getD []).filterMap fun
    | .entry e => if kindOf e = .nestedArchive then some e else none
    | _ => none

/-- The second container is the content of such an entry of the first. -/
def Nests (format : Container.Format) (outer inner : Bytes) : Prop :=
  ∃ e ∈ nestedEntries format outer, e.data = inner

/-- Each container of a chain is in the one before. -/
def Endless (format : Container.Format) (chain : ℕ → Bytes) : Prop :=
  ∀ i, Nests format (chain i) (chain (i + 1))

variable {format : Container.Format} {nested nested' : Nested} {t : Table} {mode : BufferMode}
variable {label data : Bytes} {e : Container.Entry}

theorem mem_nestedEntries_iff : e ∈ nestedEntries format data ↔
    ∃ items, format.read? data = some items ∧ .entry e ∈ items ∧ kindOf e = .nestedArchive := by
  unfold nestedEntries
  cases format.read? data with
  | none => simp
  | some items =>
    simp only [Option.getD_some, List.mem_filterMap, Option.some.injEq, exists_eq_left']
    constructor
    · rintro ⟨item, hitem, h⟩
      cases item with
      | unsupported => cases h
      | damaged => cases h
      | entry e' =>
        dsimp only at h
        split at h
        next hk =>
          obtain rfl := Option.some.inj h
          exact ⟨hitem, hk⟩
        next => cases h
    · rintro ⟨he, hk⟩
      exact ⟨.entry e, he, if_pos hk⟩

/-! ## What depends on the archives in an archive -/

theorem converted?_congr
    (h : kindOf e = .nestedArchive → ∀ label, nested label e.data = nested' label e.data) :
    converted? nested t label e = converted? nested' t label e := by
  unfold converted?
  cases hk : kindOf e with
  | nestedArchive => exact h hk _
  | classBinary | sourceText | serviceRegistration | directory | manifest | signature
  | passthrough => rfl

theorem converted?_eq_tooDeep_iff {archive : Bytes} :
    converted? nested t label e = .error (.nestedTooDeep archive) ↔
      kindOf e = .nestedArchive ∧
        nested (entryLabel label e.name) e.data = .error (.nestedTooDeep archive) := by
  unfold converted?
  cases kindOf e with
  | nestedArchive => simp [convertPayload?]
  | classBinary =>
    simp only [convertPayload?, reduceCtorEq, false_and, iff_false]
    cases t.convertClass? e.data <;> simp [Except.mapError]
  | sourceText | serviceRegistration | directory | manifest | signature | passthrough =>
    simp [convertPayload?]

theorem place?_ne_tooDeep {s : Scan} {converted : Option Bytes} {archive : Bytes} :
    s.place? t label e converted ≠ .error (.nestedTooDeep archive) := by
  unfold Scan.place?
  split
  split
  · split <;> exact nofun
  · exact nofun

theorem addEntry?_eq_tooDeep_iff {s : Scan} {archive : Bytes} :
    s.addEntry? nested t label e = .error (.nestedTooDeep archive) ↔
      converted? nested t label e = .error (.nestedTooDeep archive) := by
  simp only [addEntry?_eq_bind, bind_eq_error_iff, place?_ne_tooDeep, and_false, exists_false, or_false]

theorem scanItems_congr {items : List Container.Item}
    (h : ∀ e, .entry e ∈ items → converted? nested t label e = converted? nested' t label e)
    (total done : Nat) (s : Scan) :
    scanItems nested t label total done s items = scanItems nested' t label total done s items := by
  induction items generalizing done s with
  | nil => rfl
  | cons item items ih =>
    have hitem : s.addItem? nested t label item = s.addItem? nested' t label item := by
      cases item with
      | unsupported => rfl
      | damaged => rfl
      | entry e =>
        simp only [Scan.addItem?, addEntry?_eq_bind, h e List.mem_cons_self]
    simp only [scanItems, hitem, ih fun e he => h e (List.mem_cons_of_mem _ he)]

/-- A scan finds archives too deep in one another only where one of the entries is such an archive. -/
theorem exists_tooDeep_of_scanItems {items : List Container.Item} {total done : Nat} {s : Scan}
    {archive : Bytes}
    (h : (scanItems nested t label total done s items).result = .error (.nestedTooDeep archive)) :
    ∃ e, .entry e ∈ items ∧ converted? nested t label e = .error (.nestedTooDeep archive) := by
  induction items generalizing done s with
  | nil => cases h
  | cons item items ih =>
    simp only [scanItems, Run.result_bind, Run.result_ofExcept, Run.result_report,
      bind_eq_error_iff] at h
    rcases h with h | ⟨s', -, h | ⟨-, -, h⟩⟩
    · cases item with
      | unsupported => cases h
      | damaged => cases h
      | entry e => exact ⟨e, List.mem_cons_self, addEntry?_eq_tooDeep_iff.1 h⟩
    · cases h
    · obtain ⟨e, he, hdeep⟩ := ih h
      exact ⟨e, List.mem_cons_of_mem _ he, hdeep⟩

theorem verdict?_ne_tooDeep {plans : List Plan} {archive : Bytes} :
    verdict? t label plans ≠ .error (.nestedTooDeep archive) := by
  unfold verdict?
  split
  · exact nofun
  · split
    · split <;> exact nofun
    · split <;> exact nofun

/-- An archive is migrated alike if the archives in it are. -/
theorem migrateWith_congr
    (h : ∀ inner, Nests format data inner → ∀ label, nested label inner = nested' label inner) :
    migrateWith format nested t mode label data = migrateWith format nested' t mode label data := by
  unfold migrateWith
  cases hread : format.read? data with
  | none => rfl
  | some items =>
    have hnested : ∀ e, .entry e ∈ items →
        converted? nested t label e = converted? nested' t label e := fun e he =>
      converted?_congr fun hk => h _ ⟨e, mem_nestedEntries_iff.2 ⟨items, hread, he, hk⟩, rfl⟩
    simp only [migrateItems, scanItems_congr hnested]

/-- An archive holds others too deep in one another only if an archive in it does. -/
theorem exists_nests_of_tooDeep {archive : Bytes}
    (h : (migrateWith format nested t mode label data).result = .error (.nestedTooDeep archive)) :
    ∃ inner, Nests format data inner ∧
      ∃ label, nested label inner = .error (.nestedTooDeep archive) := by
  rw [migrateWith_result] at h
  cases hread : format.read? data with
  | none => rw [hread] at h; cases h
  | some items =>
    rw [hread] at h
    dsimp only at h
    rw [map_eq_error_iff, migrateItems_eq_finish, Run.result_bind, bind_eq_error_iff] at h
    rcases h with hscan | ⟨s, -, hfinish⟩
    · obtain ⟨e, he, hdeep⟩ := exists_tooDeep_of_scanItems hscan
      obtain ⟨hk, hdeep⟩ := converted?_eq_tooDeep_iff.1 hdeep
      exact ⟨e.data, ⟨e, mem_nestedEntries_iff.2 ⟨items, hread, he, hk⟩, rfl⟩, _, hdeep⟩
    · rw [finish_result, map_eq_error_iff] at hfinish
      exact absurd hfinish verdict?_ne_tooDeep

/-- An archive too deep in the first entry ends the migration. -/
theorem migrateWith_of_tooDeep {items : List Container.Item} {archive : Bytes}
    (hread : format.read? data = some (.entry e :: items))
    (h : converted? nested t label e = .error (.nestedTooDeep archive)) :
    (migrateWith format nested t mode label data).result = .error (.nestedTooDeep archive) := by
  rw [migrateWith_result, hread]
  dsimp only
  rw [map_eq_error_iff, migrateItems_eq_finish, Run.result_bind, bind_eq_error_iff]
  refine .inl ?_
  rw [scanItems, Run.result_bind, Run.result_ofExcept, bind_eq_error_iff]
  exact .inl ((addEntry?_eq_tooDeep_iff (s := ⟨[], .empty mode⟩)).2 h)

/-! ## Depth -/

theorem migrateWithin?_succ (format : Container.Format) (t : Table) (depth : Nat) (label data : Bytes) :
    migrateWithin? format t (depth + 1) label data =
      (migrateWith format (migrateWithin? format t depth) t .inMemory label data).result := rfl

/-- An archive ends within a depth: no archive in it is too deep, and more depth changes nothing. -/
structure EndsWithin (format : Container.Format) (t : Table) (depth : Nat) (data : Bytes) : Prop where
  reached : ∀ label archive, migrateWithin? format t depth label data ≠ .error (.nestedTooDeep archive)
  stable : ∀ deeper, depth ≤ deeper → ∀ label,
    migrateWithin? format t deeper label data = migrateWithin? format t depth label data

theorem EndsWithin.mono {depth depth' : Nat} (h : EndsWithin format t depth data)
    (hle : depth ≤ depth') : EndsWithin format t depth' data := by
  refine ⟨fun label archive => ?_, fun deeper hdeeper label => ?_⟩
  · rw [h.stable _ hle]
    exact h.reached label archive
  · rw [h.stable _ (hle.trans hdeeper), h.stable _ hle]

/-- An archive ends one deeper than all archives in it. -/
theorem EndsWithin.succ {depth : Nat}
    (h : ∀ inner, Nests format data inner → EndsWithin format t depth inner) :
    EndsWithin format t (depth + 1) data := by
  refine ⟨fun label archive hdeep => ?_, fun deeper hdeeper label => ?_⟩
  · rw [migrateWithin?_succ] at hdeep
    obtain ⟨inner, hinner, label', hdeep⟩ := exists_nests_of_tooDeep hdeep
    exact (h inner hinner).reached label' archive hdeep
  · obtain ⟨deeper, rfl⟩ := Nat.exists_eq_add_one_of_ne_zero (Nat.ne_zero_of_lt hdeeper)
    rw [migrateWithin?_succ, migrateWithin?_succ, migrateWith_congr fun inner hinner =>
      (h inner hinner).stable deeper (Nat.le_of_succ_le_succ hdeeper)]

theorem finite_nests (format : Container.Format) (data : Bytes) :
    {inner | Nests format data inner}.Finite :=
  ((nestedEntries format data).map Container.Entry.data).finite_toSet.subset fun _ ⟨_, he, hdata⟩ =>
    List.mem_map.2 ⟨_, he, hdata⟩

/-- **An archive at which no endless chain starts ends within some depth.** -/
theorem exists_endsWithin (t : Table) (h : ∀ chain, Endless format chain → chain 0 ≠ data) :
    ∃ depth, EndsWithin format t depth data := by
  have hacc : Acc (fun inner outer => Nests format outer inner) data := by
    by_contra hnot
    obtain ⟨chain, hstart, hchain⟩ := not_acc_iff_exists_descending_chain.1 hnot
    exact h chain hchain hstart
  clear h
  induction hacc with
  | intro data _ ih =>
    choose! depth hdepth using ih
    obtain ⟨deepest, hdeepest⟩ := Set.exists_upper_bound_image _ depth (finite_nests format data)
    exact ⟨depth deepest + 1, .succ fun inner hinner =>
      (hdepth inner hinner).mono (hdeepest inner hinner)⟩

/-! ## Chains -/

/-- **In an endless chain there is again and again a container no longer than its content**, which is
deflated there. -/
theorem exists_growing {chain : ℕ → Bytes} (h : Endless Container.zip chain) (n : ℕ) :
    ∃ i ≥ n, ∃ e ∈ nestedEntries Container.zip (chain i), e.data = chain (i + 1) ∧
      e.method = .deflated ∧ (chain i).length ≤ (chain (i + 1)).length := by
  by_contra hnone
  have hshrink : ∀ i, n ≤ i → (chain (i + 1)).length < (chain i).length := by
    intro i hi
    obtain ⟨e, he, hdata⟩ := h i
    by_contra hle
    refine hnone ⟨i, hi, e, he, hdata, ?_, Nat.le_of_not_lt hle⟩
    cases hm : e.method with
    | deflated => rfl
    | stored =>
      obtain ⟨items, hread, hmem, -⟩ := mem_nestedEntries_iff.1 he
      exact absurd (hdata ▸ Container.Zip.length_lt_of_stored hread hmem hm) hle
  -- the lengths would go down for ever
  have hdown : ∀ k, (chain (n + k)).length + k ≤ (chain n).length := by
    intro k
    induction k with
    | zero => exact Nat.le_refl _
    | succ k ih =>
      have hlt := hshrink (n + k) (Nat.le_add_right n k)
      change (chain (n + k + 1)).length + (k + 1) ≤ _
      omega
  have := hdown ((chain n).length + 1)
  omega

/-- **When the migration of archives in one another ends.** -/
theorem migrateWithin?_ends :
    (∀ chain, Endless Container.zip chain → ∀ n, ∃ i ≥ n,
      ∃ e ∈ nestedEntries Container.zip (chain i), e.data = chain (i + 1) ∧
        e.method = .deflated ∧ (chain i).length ≤ (chain (i + 1)).length) ∧
    ∀ data, (∀ chain, Endless Container.zip chain → chain 0 ≠ data) → ∀ t, ∃ depth,
      (∀ label archive,
        migrateWithin? Container.zip t depth label data ≠ .error (.nestedTooDeep archive)) ∧
      ∀ deeper, depth ≤ deeper → ∀ label,
        migrateWithin? Container.zip t deeper label data =
          migrateWithin? Container.zip t depth label data := by
  refine ⟨fun chain h => exists_growing h, fun data h t => ?_⟩
  obtain ⟨depth, hdepth⟩ := exists_endsWithin t h
  exact ⟨depth, hdepth.reached, hdepth.stable⟩

/-! ## A container in itself -/

section

open Container.Zip

/-- How a block of compressed data begins that holds the next `count` bytes as they are. -/
def literalBlock (count : UInt8) : Bytes := [0x00, count, 0x00, 0xFF - count, 0xFF]

/-- A block of compressed data that gives the last 20 bytes once more. -/
def copyOf20 : Bytes := [0x42, 0x88, 0x21, 0xC4, 0x00]

/-- A block that gives the last 65 bytes once more. -/
def copyOf65 : Bytes := [0xA2, 0xD8, 0x00, 0x80, 0x00]

/-- The last block; it gives the last 77 bytes once more. -/
def lastCopyOf77 : Bytes := [0xA3, 0xAA, 0x61, 0x00]

/-- The only entry of a container of 414 bytes with this checksum. -/
def selfPacked : Packed where
  system := unixSystem
  flags := 0
  method := methodCode .deflated
  checksum := 0x1187D608
  compressedSize := 306
  size := 414
  attributes := 0o100644 * 65536
  offset := 0
  name := bytes "a.jar"

/-- A container whose only entry is the container: the blocks of its compressed data give the records
before them, themselves, and the records behind them. -/
def selfNested : Bytes :=
  let front := selfPacked.localRecord ++ (List.replicate 5 (literalBlock 0)).flatten ++ literalBlock 65
  let behind := lastCopyOf77 ++ selfPacked.centralRecord ++ endRecord 1 51 341
  front ++ front ++ copyOf65 ++ literalBlock 5 ++ copyOf65 ++ literalBlock 5 ++ literalBlock 5 ++
    literalBlock 20 ++ (copyOf65 ++ literalBlock 5 ++ literalBlock 5 ++ literalBlock 20) ++ copyOf20 ++
    literalBlock 20 ++ (copyOf20 ++ literalBlock 20 ++ copyOf20 ++ literalBlock 20) ++ copyOf20 ++
    literalBlock 20 ++ (copyOf20 ++ literalBlock 0 ++ literalBlock 0 ++ literalBlock 77) ++ copyOf20 ++
    literalBlock 0 ++ literalBlock 0 ++ literalBlock 77 ++ behind ++ behind

theorem read?_selfNested : Container.zip.read? selfNested =
    some [.entry ⟨bytes "a.jar", .deflated, some 0o100644, selfNested⟩] := by
  decide +kernel

theorem kindOf_selfNested :
    kindOf ⟨bytes "a.jar", .deflated, some 0o100644, selfNested⟩ = .nestedArchive := by
  decide +kernel

theorem endless_selfNested : Endless Container.zip fun _ => selfNested := fun _ =>
  ⟨_, mem_nestedEntries_iff.2 ⟨_, read?_selfNested, List.mem_singleton_self _, kindOf_selfNested⟩, rfl⟩

/-- No depth is enough for a container in itself. -/
theorem migrateWithin?_selfNested :
    (∃ chain, chain 0 = selfNested ∧ Endless Container.zip chain) ∧
      ∀ t depth label, ∃ archive,
        migrateWithin? Container.zip t depth label selfNested = .error (.nestedTooDeep archive) := by
  refine ⟨⟨fun _ => selfNested, rfl, endless_selfNested⟩, fun t depth => ?_⟩
  induction depth with
  | zero => exact fun label => ⟨label, rfl⟩
  | succ depth ih =>
    intro label
    obtain ⟨archive, hdeep⟩ := ih (entryLabel label (bytes "a.jar"))
    refine ⟨archive, ?_⟩
    rw [migrateWithin?_succ]
    exact migrateWith_of_tooDeep read?_selfNested
      (converted?_eq_tooDeep_iff.2 ⟨kindOf_selfNested, hdeep⟩)

end

/-- A container with a text. -/
def textZip : Bytes :=
  Container.zip.write [⟨bytes "a.txt", .stored, some 0o100644, bytes "javax.el.A"⟩]

/-- That container in another one. -/
def boxedZip : Bytes := Container.zip.write [⟨bytes "a.zip", .stored, some 0o100644, textZip⟩]

theorem migrateWithin?_ends_boxedZip :
    (Endless Container.zip (fun _ => selfNested) ∧ ∃ i ≥ 1,
      ∃ e ∈ nestedEntries Container.zip selfNested, e.data = selfNested ∧ e.method = .deflated ∧
        selfNested.length ≤ selfNested.length) ∧
    (∀ chain, Endless Container.zip chain → chain 0 ≠ boxedZip) ∧
    ∃ depth, (∀ label archive, migrateWithin? Container.zip Profile.tomcat.table depth label boxedZip ≠
        .error (.nestedTooDeep archive)) ∧
      ∀ deeper, depth ≤ deeper → ∀ label,
        migrateWithin? Container.zip Profile.tomcat.table deeper label boxedZip =
          migrateWithin? Container.zip Profile.tomcat.table depth label boxedZip := by
  have hboxed : (nestedEntries Container.zip boxedZip).map Container.Entry.data = [textZip] := by
    decide +kernel
  have htext : nestedEntries Container.zip textZip = [] := by decide +kernel
  have hends : ∀ chain, Endless Container.zip chain → chain 0 ≠ boxedZip := by
    intro chain hchain hstart
    obtain ⟨e, he, hdata⟩ := hchain 0
    obtain ⟨e', he', -⟩ := hchain 1
    have hmem := List.mem_map_of_mem (f := Container.Entry.data) he
    rw [hstart, hboxed, hdata, List.mem_singleton] at hmem
    rw [hmem, htext] at he'
    exact absurd he' List.not_mem_nil
  exact ⟨⟨endless_selfNested, migrateWithin?_ends.1 _ endless_selfNested 1⟩, hends,
    migrateWithin?_ends.2 boxedZip hends Profile.tomcat.table⟩

end PackageMigration.Archive
