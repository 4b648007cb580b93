import PackageMigration.ClassFile.Conversion
import PackageMigration.Proofs.ClassFile.Grammar
import PackageMigration.Proofs.ClassFile.Writing
import PackageMigration.Proofs.Mapping.Settled
/-
  What becomes of a class file whose text constants hold mapped names.

  * `Table.FirstTooLong`: the first text constant that is too long once it is converted.
  * `Table.Converted`: the class file with its text constants converted and all else as it was.

  Main statements: `convertClass?_outcome`, `IsSettled.convertClass?_convertClass?`.
-/
namespace PackageMigration

/-! ## Pools with other texts -/

/-- The outcomes of a search by index are those of the first item that has one. -/
theorem findSome?_zipIdx_eq_some_iff {α β : Type} {l : List α} {g : α → Option β} {k m : Nat} {b : β} :
    ((l.zipIdx k).findSome? fun x => (g x.1).map (x.2, ·)) = some (m, b) ↔
      ∃ i, m = k + i ∧ (∃ a, l[i]? = some a ∧ g a = some b) ∧
        ∀ j < i, ∀ a, l[j]? = some a → g a = none := by
  induction l generalizing k with
  | nil => simp
  | cons a l ih =>
    rw [List.zipIdx_cons, List.findSome?_cons]
    cases hg : g a with
    | some b' =>
      simp only [Option.map_some, Option.some.injEq, Prod.mk.injEq]
      constructor
      · rintro ⟨rfl, rfl⟩
        exact ⟨0, rfl, ⟨a, rfl, hg⟩, by simp⟩
      · rintro ⟨i, rfl, ⟨a', hi, hb⟩, hlt⟩
        cases i with
        | zero =>
          obtain rfl : a = a' := by simpa using hi
          exact ⟨rfl, Option.some.inj (hg.symm.trans hb)⟩
        | succ i => simp [hlt 0 (by omega) a rfl] at hg
    | none =>
      simp only [Option.map_none, ih]
      constructor
      · rintro ⟨i, rfl, hi, hlt⟩
        refine ⟨i + 1, by omega, hi, fun j hj a' ha => ?_⟩
        cases j with
        | zero =>
          obtain rfl : a = a' := by simpa using ha
          exact hg
        | succ j => exact hlt j (by omega) a' ha
      · rintro ⟨i, rfl, ⟨a', hi, hb⟩, hlt⟩
        cases i with
        | zero =>
          obtain rfl : a = a' := by simpa using hi
          simp [hg] at hb
        | succ i => exact ⟨i, by omega, ⟨a', hi, hb⟩, fun j hj => hlt (j + 1) (by omega)⟩

namespace Slot

theorem replace_eq_self_of_text? {s : Slot} (h : s.text? = none) (f : Bytes → Option Bytes) :
    s.replace f = s := by
  cases s with
  | utf8 => cases h
  | unusable => rfl
  | other => rfl

end Slot

/-- Replacing texts where they stand answers one after the other. -/
theorem answered_map_replace (f : Bytes → Option Bytes) (ss : List Slot) :
    Answered ss ((ss.filterMap Slot.text?).map f) (ss.map (Slot.replace f)) := by
  induction ss with
  | nil => exact .nil
  | cons s ss ih =>
    rw [List.map_cons]
    cases htext : s.text? with
    | none =>
      rw [List.filterMap_cons_none htext, Slot.replace_eq_self_of_text? htext]
      exact .other htext ih
    | some payload =>
      rw [List.filterMap_cons_some htext]
      obtain rfl := Slot.text?_eq_some_iff.1 htext
      exact .text ih

theorem fit_map_of_tooLong? {f : Bytes → Option Bytes} {ss : List Slot}
    (h : ∀ s ∈ ss, (s.replace f).tooLong? = none) : Fit ((ss.filterMap Slot.text?).map f) := by
  intro new hnew
  obtain ⟨payload, hmem, hf⟩ := List.mem_map.1 hnew
  obtain ⟨s, hs, htext⟩ := List.mem_filterMap.1 hmem
  obtain rfl := Slot.text?_eq_some_iff.1 htext
  simpa [Slot.replace, hf, Slot.tooLong?] using h _ hs

namespace ClassFile

theorem mapUtf8_const (c : ClassFile) (f : Bytes → Option Bytes) :
    c.mapUtf8 (fun _ => f) = { c with pool := c.pool.map (Slot.replace f) } := by
  have h : (c.pool.zipIdx.map fun x => x.1.replace f) = c.pool.map (Slot.replace f) := by
    rw [← List.zipIdx_map_fst 0 c.pool, List.map_map, List.zipIdx_map_fst]
    rfl
  exact congrArg (fun pool => { c with pool }) h

theorem mapUtf8_eq_self {c : ClassFile} {f : Bytes → Option Bytes}
    (hf : ∀ payload, .utf8 payload ∈ c.pool → f payload = none) : (c.mapUtf8 fun _ => f) = c := by
  have hpool : c.pool.map (Slot.replace f) = c.pool := by
    conv_rhs => rw [← List.map_id c.pool]
    refine List.map_congr_left fun s hs => ?_
    cases s with
    | utf8 payload => simp [Slot.replace, hf payload hs]
    | unusable => rfl
    | other => rfl
  rw [mapUtf8_const, hpool]

theorem firstTooLong?_eq_some_iff {c : ClassFile} {i n : Nat} :
    c.firstTooLong? = some (i, n) ↔
      (∃ s, c.pool[i]? = some s ∧ s.tooLong? = some n) ∧
        ∀ j < i, ∀ s, c.pool[j]? = some s → s.tooLong? = none := by
  rw [show c.firstTooLong? = c.pool.zipIdx.findSome? fun x => x.1.tooLong?.map (x.2, ·) from rfl,
    findSome?_zipIdx_eq_some_iff]
  simp

theorem firstTooLong?_eq_none_iff {c : ClassFile} :
    c.firstTooLong? = none ↔ ∀ s ∈ c.pool, s.tooLong? = none := by
  simp only [firstTooLong?, List.findSome?_eq_none_iff, Option.map_eq_none_iff, Prod.forall]
  constructor
  · intro h s hs
    obtain ⟨i, hi⟩ := List.getElem?_of_mem hs
    exact h s i (List.mem_zipIdx_iff_getElem?.2 hi)
  · intro h s i hs
    exact h s (List.mem_of_getElem? (List.mem_zipIdx_iff_getElem?.1 hs))

/-- Texts of a class file may be replaced by others that are not too long. -/
theorem WellFormed.mapUtf8 {c : ClassFile} (h : c.WellFormed) {f : Bytes → Option Bytes}
    (hl : (c.mapUtf8 fun _ => f).firstTooLong? = none) : (c.mapUtf8 fun _ => f).WellFormed := by
  rw [firstTooLong?_eq_none_iff] at hl
  rw [mapUtf8_const] at hl ⊢
  exact h.of_answered (answered_map_replace f c.pool)
    (fit_map_of_tooLong? fun s hs => hl _ (List.mem_map_of_mem hs))

/-! ## Errors -/

/-- The error is one of reading. -/
def Error.IsOfReading (e : Error) : Prop := ∀ i n, e ≠ .utf8TooLong i n

/-- Reading a class file never finds a text too long: its length field has said how long it is. -/
theorem isOfReading_of_parse? {data : Bytes} {e : Error} (h : parse? data = .error e) :
    e.IsOfReading := by
  rintro i n rfl
  cases fails_of_parse? h

end ClassFile

/-! ## Conversion -/

namespace Table

open ClassFile

variable {t : Table} {c c' : ClassFile} {data : Bytes}

/-- With its names replaced, the text constant at index `i` is the first one that is too long. It has
`n` bytes then. -/
structure FirstTooLong (t : Table) (c : ClassFile) (i n : Nat) : Prop where
  found : ∃ payload, c.pool[i]? = some (.utf8 payload) ∧ (t.convert payload).length = n ∧ 0xFFFF < n
  first : ∀ j < i, ∀ payload, c.pool[j]? = some (.utf8 payload) → (t.convert payload).length ≤ 0xFFFF

/-- `c'` is `c` with the names in its text constants replaced. -/
structure Converted (t : Table) (c c' : ClassFile) : Prop where
  header : c'.header = c.header
  count : c'.pool.length = c.pool.length
  remainder : c'.remainder = c.remainder
  texts : ∀ (i : Nat) (payload : Bytes), c.pool[i]? = some (.utf8 payload) →
    c'.pool[i]? = some (.utf8 (t.convert payload))
  others : ∀ (i : Nat) (s : Slot), c.pool[i]? = some s → s.text? = none → c'.pool[i]? = some s

theorem converted_iff : t.Converted c c' ↔ c' = c.mapUtf8 fun _ => t.convert? := by
  rw [mapUtf8_const]
  constructor
  · rintro ⟨hh, hc, hr, ht, ho⟩
    obtain ⟨header, pool, remainder⟩ := c'
    obtain rfl : header = c.header := hh
    obtain rfl : remainder = c.remainder := hr
    congr 1
    refine List.ext_getElem? fun i => ?_
    rw [List.getElem?_map]
    cases hi : c.pool[i]? with
    | none =>
      rw [List.getElem?_eq_none_iff] at hi
      exact List.getElem?_eq_none_iff.2 (Nat.le_trans (Nat.le_of_eq hc) hi)
    | some s =>
      cases s with
      | utf8 payload => exact ht i payload hi
      | unusable => exact ho i _ hi rfl
      | other => exact ho i _ hi rfl
  · rintro rfl
    refine ⟨rfl, List.length_map _, rfl, fun i payload h => ?_, fun i s h ht => ?_⟩
    · simp [h, Slot.replace, convert]
    · simp [h, Slot.replace_eq_self_of_text? ht]

theorem tooLong?_replace_eq_some_iff {s : Slot} {n : Nat} :
    (s.replace t.convert?).tooLong? = some n ↔
      ∃ payload, s = .utf8 payload ∧ (t.convert payload).length = n ∧ 0xFFFF < n := by
  cases s with
  | utf8 payload =>
    simp only [Slot.replace, Slot.tooLong?, Slot.utf8.injEq, exists_eq_left', convert]
    split <;> simp <;> omega
  | unusable => simp [Slot.replace, Slot.tooLong?]
  | other => simp [Slot.replace, Slot.tooLong?]

theorem firstTooLong_iff {i n : Nat} :
    t.FirstTooLong c i n ↔ (c.mapUtf8 fun _ => t.convert?).firstTooLong? = some (i, n) := by
  rw [firstTooLong?_eq_some_iff, mapUtf8_const]
  simp only [List.getElem?_map, Option.map_eq_some_iff]
  constructor
  · rintro ⟨⟨payload, hi, hn, hlt⟩, hf⟩
    refine ⟨⟨_, ⟨_, hi, rfl⟩, tooLong?_replace_eq_some_iff.2 ⟨payload, rfl, hn, hlt⟩⟩, ?_⟩
    rintro j hj _ ⟨s, hs, rfl⟩
    refine Option.eq_none_iff_forall_ne_some.2 fun m hm => ?_
    obtain ⟨payload, rfl, rfl, hlt⟩ := tooLong?_replace_eq_some_iff.1 hm
    exact absurd (hf j hj payload hs) (by omega)
  · rintro ⟨⟨_, ⟨s, hs, rfl⟩, hn⟩, hf⟩
    obtain ⟨payload, rfl, hn, hlt⟩ := tooLong?_replace_eq_some_iff.1 hn
    refine ⟨⟨payload, hs, hn, hlt⟩, fun j hj payload hp => Nat.le_of_not_lt fun hl => ?_⟩
    have := hf j hj _ ⟨_, hp, rfl⟩
    rw [tooLong?_replace_eq_some_iff.2 ⟨payload, rfl, rfl, hl⟩] at this
    cases this

theorem holdsName_iff :
    c.holdsName t ↔ ∃ payload, .utf8 payload ∈ c.pool ∧ t.convert? payload ≠ none := by
  simp only [holdsName, List.any_eq_true, Option.isSome_iff_ne_none]
  constructor
  · rintro ⟨s, hs, h⟩
    cases s with
    | utf8 payload => exact ⟨payload, hs, h⟩
    | unusable => exact absurd rfl h
    | other => exact absurd rfl h
  · rintro ⟨payload, hs, h⟩
    exact ⟨_, hs, h⟩

/-- A class file without a mapped name comes out as it was. -/
theorem mapUtf8_eq_self_of_not_holdsName (h : ¬ c.holdsName t) :
    (c.mapUtf8 fun _ => t.convert?) = c :=
  mapUtf8_eq_self fun payload hp => Decidable.byContradiction fun hne =>
    h (holdsName_iff.2 ⟨payload, hp, hne⟩)

/-- Texts that one table converted hold no name for another if none is left for it. -/
theorem not_holdsName_mapUtf8 {u : Table} (h : ∀ s, u.convert? (t.convert s) = none) :
    ¬ (c.mapUtf8 fun _ => t.convert?).holdsName u := by
  rw [holdsName_iff, mapUtf8_const]
  rintro ⟨payload, hmem, hne⟩
  obtain ⟨s, -, hs⟩ := List.mem_map.1 hmem
  cases s with
  | unusable => cases hs
  | other => cases hs
  | utf8 text =>
    obtain rfl := Slot.utf8.inj hs
    exact hne (h text)

/-- Texts that stay as they are are not too long. -/
theorem not_firstTooLong (hw : c.WellFormed) (h : ¬ c.holdsName t) {i n : Nat} :
    ¬ t.FirstTooLong c i n := by
  rintro ⟨⟨payload, hi, rfl, hlt⟩, -⟩
  have hp : .utf8 payload ∈ c.pool := List.mem_of_getElem? hi
  have hn : t.convert? payload = none := Decidable.byContradiction fun hne =>
    h (holdsName_iff.2 ⟨payload, hp, hne⟩)
  rw [convert, hn, Option.getD_none] at hlt
  exact absurd (hw.fits _ hp payload rfl) (Nat.not_le.2 hlt)

theorem convertClass?_of_parse? (h : parse? data = .ok c) :
    t.convertClass? data =
      match (c.mapUtf8 fun _ => t.convert?).firstTooLong? with
      | some (i, n) => .error (.utf8TooLong i n)
      | none => .ok (if c.holdsName t then some (c.mapUtf8 fun _ => t.convert?).bytes else none) := by
  simp only [convertClass?, h, replacing?_eq, bind, Except.bind]
  cases (c.mapUtf8 fun _ => t.convert?).firstTooLong? <;> rfl

theorem convertClass?_of_parse?_error {e : ClassFile.Error} (h : parse? data = .error e) :
    t.convertClass? data = .error e := by
  simp only [convertClass?, h, bind, Except.bind]

theorem convertClass?_eq_tooLong_iff (h : parse? data = .ok c) {e : ClassFile.Error} :
    t.convertClass? data = .error e ↔ ∃ i n, e = .utf8TooLong i n ∧ t.FirstTooLong c i n := by
  simp only [convertClass?_of_parse? h, firstTooLong_iff]
  cases (c.mapUtf8 fun _ => t.convert?).firstTooLong? with
  | none => simp
  | some x => simp [eq_comm, Prod.ext_iff]

theorem convertClass?_eq_none_iff (h : parse? data = .ok c) :
    t.convertClass? data = .ok none ↔ ¬ c.holdsName t := by
  rw [convertClass?_of_parse? h]
  by_cases hn : c.holdsName t
  · cases (c.mapUtf8 fun _ => t.convert?).firstTooLong? <;> simp [hn]
  · cases hf : (c.mapUtf8 fun _ => t.convert?).firstTooLong? with
    | none => simp [hn]
    | some x => exact absurd (firstTooLong_iff.2 hf) (not_firstTooLong (parse?_eq_ok_iff.1 h).1 hn)

theorem convertClass?_eq_some_iff (h : parse? data = .ok c) {out : Bytes} :
    t.convertClass? data = .ok (some out) ↔
      (∀ i n, ¬ t.FirstTooLong c i n) ∧ c.holdsName t ∧
        ∃ c', parse? out = .ok c' ∧ t.Converted c c' := by
  have hw := (parse?_eq_ok_iff.1 h).1
  simp only [convertClass?_of_parse? h, firstTooLong_iff, converted_iff, exists_eq_right]
  cases hf : (c.mapUtf8 fun _ => t.convert?).firstTooLong? with
  | some x =>
    obtain ⟨i, n⟩ := x
    exact ⟨nofun, fun h => absurd rfl (h.1 i n)⟩
  | none =>
    have hparse : parse? out = .ok (c.mapUtf8 fun _ => t.convert?) ↔
        (c.mapUtf8 fun _ => t.convert?).bytes = out :=
      parse?_eq_ok_iff.trans ⟨fun h => h.2.symm, fun h => ⟨hw.mapUtf8 hf, h.symm⟩⟩
    rw [hparse]
    by_cases hn : c.holdsName t <;> simp [hn]

/-- **The outcome of converting a class file.** It is the error of reading it; or the first text
constant that comes out too long; or nothing, if no text constant holds a mapped name; or else a
class file that differs from the one read in the names that its text constants hold. -/
theorem convertClass?_outcome (t : Table) (data : Bytes) :
    (∀ e, t.convertClass? data = .error e ∧ e.IsOfReading ↔ parse? data = .error e) ∧
    (∀ i n, t.convertClass? data = .error (.utf8TooLong i n) ↔
      ∃ c, parse? data = .ok c ∧ t.FirstTooLong c i n) ∧
    (t.convertClass? data = .ok none ↔
      ∃ c, parse? data = .ok c ∧ ∀ payload, .utf8 payload ∈ c.pool → t.convert? payload = none) ∧
    ∀ out, t.convertClass? data = .ok (some out) ↔
      ∃ c, parse? data = .ok c ∧ (∀ i n, ¬ t.FirstTooLong c i n) ∧
        (∃ payload, .utf8 payload ∈ c.pool ∧ t.convert? payload ≠ none) ∧
        ∃ c', parse? out = .ok c' ∧ t.Converted c c' := by
  cases h : parse? data with
  | error e =>
    have he := convertClass?_of_parse?_error (t := t) h
    have hr := isOfReading_of_parse? h
    refine ⟨fun e' => ?_, fun i n => ?_, ?_, fun out => ?_⟩
    · rw [he, Except.error.injEq, Except.error.injEq]
      exact ⟨And.left, fun h => ⟨h, h ▸ hr⟩⟩
    · rw [he]
      exact ⟨fun h => absurd (Except.error.inj h) (hr i n), fun ⟨_, h, _⟩ => nomatch h⟩
    · rw [he]
      exact ⟨nofun, fun ⟨_, h, _⟩ => nomatch h⟩
    · rw [he]
      exact ⟨nofun, fun ⟨_, h, _⟩ => nomatch h⟩
  | ok c =>
    refine ⟨fun e => ?_, fun i n => ?_, ?_, fun out => ?_⟩
    · refine ⟨fun ⟨he, hr⟩ => ?_, nofun⟩
      obtain ⟨i, n, rfl, -⟩ := (convertClass?_eq_tooLong_iff h).1 he
      exact absurd rfl (hr i n)
    · rw [convertClass?_eq_tooLong_iff h]
      constructor
      · rintro ⟨i', n', he, hf⟩
        obtain ⟨rfl, rfl⟩ := ClassFile.Error.utf8TooLong.inj he
        exact ⟨c, rfl, hf⟩
      · rintro ⟨c', hc, hf⟩
        obtain rfl := Except.ok.inj hc
        exact ⟨i, n, rfl, hf⟩
    · simp [convertClass?_eq_none_iff h, holdsName_iff]
    · simp [convertClass?_eq_some_iff h, holdsName_iff]

/-- In a settled table, a class file is converted once. -/
theorem IsSettled.convertClass?_convertClass? (ht : t.IsSettled) {out : Bytes}
    (h : t.convertClass? data = .ok (some out)) : t.convertClass? out = .ok none := by
  cases hp : parse? data with
  | error => rw [convertClass?_of_parse?_error hp] at h; cases h
  | ok c =>
    obtain ⟨-, -, c', hp', hc⟩ := (convertClass?_eq_some_iff hp).1 h
    obtain rfl := converted_iff.1 hc
    exact (convertClass?_eq_none_iff hp').2 (not_holdsName_mapUtf8 ht.convert?_convert)

end Table

end PackageMigration
