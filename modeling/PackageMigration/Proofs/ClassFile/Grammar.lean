import Mathlib.Data.List.Induction
import PackageMigration.Proofs.ClassFile.Layout
/-
  The grammar of class files.

  * `Slot.tags`: the tags that constants have.
  * `spread`: the slots that constants take.
  * `PoolState`, `Visits`: where reading a pool stands between two constants.
  * `Fails`: what is wrong with data that is no class file.

  Main statements: `Visits.exists_filled` and `Starts.visits` (the constants read are those that the data
  spells), `parse?_eq_error_iff`, `parse?_outcome` (the class file or the error, by the grammar).
-/
namespace PackageMigration

namespace Slot

/-- The tags of constants: of text, numbers, names of classes, strings, members and the others. -/
def tags : List UInt8 := [1, 3, 4, 5, 6, 7, 8, 9, 10, 11, 12, 15, 16, 17, 18, 19, 20]

theorem mem_tags_iff {tag : UInt8} : tag ∈ tags ↔ tag = utf8Tag ∨ (bodySize? tag).isSome := by
  have h : ∀ n : Fin 256, UInt8.ofFin n ∈ tags ↔
      UInt8.ofFin n = utf8Tag ∨ (bodySize? (UInt8.ofFin n)).isSome := by decide +kernel
  exact h tag.toFin

end Slot

namespace Cursor

variable {c : Cursor} {part : ClassFile.Part} {n : Nat} {e : ClassFile.Error}

theorem take?_eq_error_iff :
    c.take? part n = .error e ↔ c.rest.length < n ∧ e = .truncated part c.offset := by
  unfold take?
  dsimp only
  rw [List.length_take]
  split
  next h =>
    simp only [reduceCtorEq, false_iff, not_and]
    omega
  next h =>
    have hlt : c.rest.length < n := by omega
    simp [hlt, eq_comm]

theorem number?_eq_error_iff :
    c.number? part n = .error e ↔ c.rest.length < n ∧ e = .truncated part c.offset := by
  simp only [number?, bind_eq_error_iff, pure_ne_error, and_false, exists_false, or_false,
    take?_eq_error_iff]

theorem take?_append {s rest : Bytes} {offset : Nat} (h : s.length = n) :
    (⟨s ++ rest, offset⟩ : Cursor).take? part n = .ok (s, ⟨rest, offset + n⟩) :=
  take?_eq_ok_iff.2 ⟨rfl, h, rfl⟩

theorem number?_bigEndian {v : Nat} {rest : Bytes} {offset : Nat} (h : v < Bytes.capacity n) :
    (⟨Bytes.bigEndian n v ++ rest, offset⟩ : Cursor).number? part n = .ok (v, ⟨rest, offset + n⟩) :=
  number?_eq_ok_iff.2 ⟨rfl, h, rfl⟩

end Cursor

namespace Slot

variable {index : Nat} {c : Cursor}

/-- These are the tags that constants start with. -/
theorem mem_tags_iff_exists {tag : UInt8} :
    tag ∈ tags ↔ ∃ s : Slot, s.IsConstant ∧ s.bytes.head? = some tag := by
  rw [mem_tags_iff]
  constructor
  · rintro (rfl | h)
    · exact ⟨.utf8 [], Nat.zero_le _, rfl⟩
    · by_cases htag : tag = utf8Tag
      · exact ⟨.utf8 [], Nat.zero_le _, congrArg some htag.symm⟩
      · obtain ⟨size, hs⟩ := Option.isSome_iff_exists.1 h
        exact ⟨.other tag (List.replicate size 0), ⟨htag, by rw [hs, List.length_replicate]⟩, rfl⟩
  · rintro ⟨s, hs, h⟩
    cases s with
    | unusable => exact hs.elim
    | utf8 payload => exact .inl (Option.some.inj h).symm
    | other tag' body =>
      cases h
      exact .inr (by rw [hs.2]; rfl)

/-- The tag of a constant is not known if and only if no constant has it. -/
theorem read?_eq_unknownTag_iff {tag : UInt8} {index' : Nat} :
    read? index c = .error (.unknownTag tag index') ↔
      index' = index ∧ tag ∉ tags ∧ c.rest.head? = some tag := by
  rw [mem_tags_iff, not_or, Bool.not_eq_true, Option.isSome_eq_false_iff, Option.isNone_iff_eq_none]
  simp only [read?, bind_eq_error_iff, Prod.exists, Cursor.take?_eq_error_iff, reduceCtorEq, and_false,
    false_or, Cursor.take?_eq_ok_iff]
  constructor
  · rintro ⟨s, d, ⟨hr, hs, -⟩, h⟩
    obtain ⟨b, rfl⟩ := List.length_eq_one_iff.1 hs
    rw [List.headD_cons] at h
    split at h
    · simp only [bind_eq_error_iff, Cursor.number?_eq_error_iff, Cursor.take?_eq_error_iff, pure_ne_error,
        reduceCtorEq, and_false, exists_false, or_false] at h
    next hb =>
      split at h
      next hnone =>
        rw [throw_eq_error_iff, ClassFile.Error.unknownTag.injEq] at h
        obtain ⟨rfl, rfl⟩ := h
        exact ⟨rfl, ⟨hb, hnone⟩, by rw [hr]; rfl⟩
      · simp only [bind_eq_error_iff, Cursor.take?_eq_error_iff, pure_ne_error, reduceCtorEq,
          and_false, exists_false, or_false] at h
  · rintro ⟨rfl, ⟨htag, hnone⟩, hr⟩
    obtain ⟨rest, hr⟩ := List.head?_eq_some_iff.1 hr
    refine ⟨[tag], ⟨rest, c.offset + 1⟩, ⟨hr, rfl, rfl⟩, ?_⟩
    rw [List.headD_cons, if_neg htag, hnone]
    rfl

/-- A constant is not read because of its tag, or because the bytes end in it. -/
theorem read?_eq_error {e : ClassFile.Error} (h : read? index c = .error e) :
    (∃ tag, e = .unknownTag tag index) ∨
      ∃ part offset, e = .truncated part offset ∧ offset ≤ c.offset + c.rest.length := by
  simp only [read?, bind_eq_error_iff, Prod.exists, Cursor.take?_eq_error_iff,
    Cursor.take?_eq_ok_iff] at h
  obtain ⟨-, rfl⟩ | ⟨s, d, ⟨hr, hs, ho⟩, h⟩ := h
  · exact .inr ⟨_, _, rfl, Nat.le_add_right _ _⟩
  have hd : d.offset + d.rest.length = c.offset + c.rest.length := by
    rw [hr, ho, List.length_append]
    omega
  split at h
  · simp only [bind_eq_error_iff, Prod.exists, Cursor.number?_eq_error_iff, Cursor.number?_eq_ok_iff,
      Cursor.take?_eq_error_iff, pure_ne_error, and_false, exists_false, or_false] at h
    obtain ⟨-, rfl⟩ | ⟨n, d', ⟨hr', -, ho'⟩, -, rfl⟩ := h
    · exact .inr ⟨_, _, rfl, by omega⟩
    · refine .inr ⟨_, _, rfl, ?_⟩
      rw [hr', List.length_append, Bytes.length_bigEndian] at hd
      omega
  · split at h
    · rw [throw_eq_error_iff] at h
      exact .inl ⟨_, h.symm⟩
    · simp only [bind_eq_error_iff, Cursor.take?_eq_error_iff, pure_ne_error, and_false,
        exists_false, or_false] at h
      obtain ⟨-, rfl⟩ := h
      exact .inr ⟨_, _, rfl, by omega⟩

theorem offset_le_of_read? {part : ClassFile.Part} {offset : Nat}
    (h : read? index c = .error (.truncated part offset)) : offset ≤ c.offset + c.rest.length := by
  obtain ⟨_, he⟩ | ⟨_, _, he, hle⟩ := read?_eq_error h
  · cases he
  · cases he
    exact hle

/-- The slots that a constant takes. -/
def slots (s : Slot) : List Slot := if s.isWide then [s, .unusable] else [s]

end Slot

/-- The slots that constants take, the second ones of wide constants included. -/
def spread (cs : List Slot) : List Slot := cs.flatMap Slot.slots

theorem spread_concat (cs : List Slot) (s : Slot) : spread (cs ++ [s]) = spread cs ++ s.slots := by
  rw [spread, List.flatMap_append, List.flatMap_singleton]
  rfl

/-! ## The constants of a pool one after the other -/

/-- Where reading a pool stands between two constants. -/
structure PoolState where
  /-- How many slots are still to be filled. -/
  left : Nat
  /-- The slot of the next constant. -/
  index : Nat
  /-- The slots filled so far, the last one first. -/
  read : List Slot
  cursor : Cursor

/-- The class file that reading on from the state ends in. -/
def PoolState.finish? (header : Bytes) (st : PoolState) : Except ClassFile.Error ClassFile := do
  let (pool, c) ← ClassFile.readPool? st.left st.index st.read st.cursor
  if c.rest.length < ClassFile.minRemainder then .error (.truncated .classHeader c.offset)
  else .ok ⟨header, pool, c.rest⟩

namespace ClassFile

/-- Magic number and version. -/
def IsHeader (header : Bytes) : Prop :=
  header.length = 8 ∧ Bytes.ofBigEndian (header.take 4) = classMagic

/-- The data starts like a class file that counts `n` slots. -/
structure Starts (data header rest : Bytes) (n : Nat) : Prop where
  isHeader : IsHeader header
  count_le : n ≤ 0xFFFF
  data_eq : data = header ++ Bytes.bigEndian 2 n ++ rest

/-- The states that reading the pool of a class file goes through. -/
inductive Visits (data : Bytes) : PoolState → Prop
  | start {header rest : Bytes} {left : Nat} : Starts data header rest (left + 1) →
      Visits data ⟨left, 1, [.unusable], ⟨rest, 10⟩⟩
  | narrow {left index : Nat} {read : List Slot} {c d : Cursor} {s : Slot} :
      Visits data ⟨left + 1, index, read, c⟩ → Slot.read? index c = .ok (s, d) → s.isWide = false →
      Visits data ⟨left, index + 1, s :: read, d⟩
  | wide {left index : Nat} {read : List Slot} {c d : Cursor} {s : Slot} :
      Visits data ⟨left + 2, index, read, c⟩ → Slot.read? index c = .ok (s, d) → s.isWide →
      Visits data ⟨left, index + 2, .unusable :: s :: read, d⟩
  | last {index : Nat} {read : List Slot} {c d : Cursor} {s : Slot} :
      Visits data ⟨1, index, read, c⟩ → Slot.read? index c = .ok (s, d) → s.isWide →
      Visits data ⟨0, index + 1, s :: read, d⟩

variable {data header : Bytes} {left index : Nat} {read pool cs : List Slot} {c d : Cursor} {s : Slot}
  {e : Error}

theorem readPool?_of_narrow (hs : Slot.read? index c = .ok (s, d)) (hw : s.isWide = false) :
    readPool? (left + 1) index read c = readPool? left (index + 1) (s :: read) d := by
  rw [readPool?, hs]
  simp only [hw, Bool.false_eq_true, if_false]

theorem readPool?_of_wide (hs : Slot.read? index c = .ok (s, d)) (hw : s.isWide) :
    readPool? (left + 2) index read c = readPool? left (index + 2) (.unusable :: s :: read) d := by
  rw [readPool?, hs]
  simp only [hw, if_true]

theorem readPool?_of_last (hs : Slot.read? index c = .ok (s, d)) (hw : s.isWide) :
    readPool? 1 index read c = readPool? 0 (index + 1) (s :: read) d := by
  rw [readPool?, readPool?, hs]
  simp only [hw, if_true]

/-- A pool that is read is what the last state of reading it holds. -/
theorem Visits.exists_of_ok (hv : Visits data ⟨left, index, read, c⟩)
    (h : readPool? left index read c = .ok (pool, d)) :
    ∃ index read, Visits data ⟨0, index, read, d⟩ ∧ pool = read.reverse := by
  fun_induction readPool? left index read c with
  | case1 index read c =>
    cases h
    exact ⟨index, read, hv, rfl⟩
  | case2 => cases h
  | case3 index read c s c' hs hw =>
    cases h
    exact ⟨index + 1, s :: read, hv.last hs hw, rfl⟩
  | case4 index read c s c' hs hw left ih => exact ih (hv.wide hs hw) h
  | case5 left index read c s c' hs hw ih => exact ih (hv.narrow hs (by simpa using hw)) h

/-- A pool is not read because of a constant that is not read. -/
theorem Visits.exists_of_error (hv : Visits data ⟨left, index, read, c⟩)
    (h : readPool? left index read c = .error e) :
    ∃ left index read c, Visits data ⟨left + 1, index, read, c⟩ ∧ Slot.read? index c = .error e := by
  fun_induction readPool? left index read c with
  | case1 => cases h
  | case2 left index read c e' hs =>
    cases h
    exact ⟨left, index, read, c, hv, hs⟩
  | case3 => cases h
  | case4 index read c s c' hs hw left ih => exact ih (hv.wide hs hw) h
  | case5 left index read c s c' hs hw ih => exact ih (hv.narrow hs (by simpa using hw)) h

/-- The state has filled the slots of constants that the data spells. -/
structure Filled (data header : Bytes) (cs : List Slot) (st : PoolState) : Prop where
  starts : Starts data header (cs.flatMap Slot.bytes ++ st.cursor.rest) (st.index + st.left)
  isConstant : ∀ s ∈ cs, s.IsConstant
  index_eq : st.index = st.read.length
  offset_eq : st.cursor.offset = 10 + (cs.flatMap Slot.bytes).length
  /-- Only the last constant can be short of its second slot. -/
  read_eq : 0 < st.left → st.read.reverse = .unusable :: spread cs

/-- A constant is read into `k` slots. -/
theorem Filled.concat (taken : List Slot) {k : Nat}
    (h : Filled data header cs ⟨left + k, index, read, c⟩) (hs : Slot.read? index c = .ok (s, d))
    (hk : taken.length = k) (hpos : 0 < k) (htaken : 0 < left → taken.reverse = s.slots) :
    Filled data header (cs ++ [s]) ⟨left, index + k, taken ++ read, d⟩ := by
  obtain ⟨hst, hc, hi, ho, hr⟩ := h
  obtain ⟨hconst, hrest, hoff⟩ := Slot.read?_eq_ok_iff.1 hs
  dsimp only at hst hi ho hr
  refine ⟨?_, ?_, ?_, ?_, fun hleft => ?_⟩
  · have hcount : index + (left + k) = index + k + left := by omega
    rw [hrest, ← List.append_assoc, hcount] at hst
    rwa [List.flatMap_append, List.flatMap_singleton]
  · intro s' hs'
    rcases List.mem_append.1 hs' with hs' | hs'
    · exact hc s' hs'
    · rw [List.mem_singleton.1 hs']
      exact hconst
  · rw [List.length_append, hk, ← hi, Nat.add_comm]
  · rw [hoff, ho, List.flatMap_append, List.flatMap_singleton, List.length_append, Nat.add_assoc]
  · rw [List.reverse_append, htaken hleft, hr (by omega), spread_concat, List.cons_append]

/-- The states of reading a pool have filled the slots of the constants read. -/
theorem Visits.exists_filled {st : PoolState} (h : Visits data st) :
    ∃ header cs, Filled data header cs st := by
  induction h with
  | @start header rest left hs =>
    rw [Nat.add_comm] at hs
    exact ⟨header, [], hs, by simp, rfl, rfl, fun _ => rfl⟩
  | narrow _ hs hw ih =>
    obtain ⟨header, cs, ih⟩ := ih
    exact ⟨header, _, ih.concat [_] hs rfl Nat.one_pos fun _ => by simp [Slot.slots, hw]⟩
  | wide _ hs hw ih =>
    obtain ⟨header, cs, ih⟩ := ih
    exact ⟨header, _, ih.concat [_, _] hs rfl Nat.two_pos fun _ => by simp [Slot.slots, hw]⟩
  | last _ hs hw ih =>
    obtain ⟨header, cs, ih⟩ := ih
    exact ⟨header, _, ih.concat [_] hs rfl Nat.one_pos nofun⟩

/-- What is left to read of the data stands at the offset. -/
theorem Visits.exists_append {st : PoolState} (h : Visits data st) :
    ∃ front, data = front ++ st.cursor.rest ∧ front.length = st.cursor.offset := by
  obtain ⟨header, cs, h⟩ := h.exists_filled
  refine ⟨header ++ Bytes.bigEndian 2 (st.index + st.left) ++ cs.flatMap Slot.bytes, ?_, ?_⟩
  · rw [List.append_assoc, ← h.starts.data_eq]
  · rw [h.offset_eq, List.length_append, List.length_append, h.starts.isHeader.1, Bytes.length_bigEndian]

theorem Visits.offset_le {st : PoolState} (h : Visits data st) : st.cursor.offset ≤ data.length := by
  obtain ⟨front, hd, hlen⟩ := h.exists_append
  rw [hd, List.length_append, hlen]
  exact Nat.le_add_right _ _

theorem Visits.rest_eq_drop {st : PoolState} (h : Visits data st) :
    st.cursor.rest = data.drop st.cursor.offset := by
  obtain ⟨front, hd, hlen⟩ := h.exists_append
  rw [hd, ← hlen, List.drop_left]

/-- The constants that the data spells are read one after the other. -/
theorem Starts.visits {rest : Bytes}
    (hs : Starts data header (cs.flatMap Slot.bytes ++ rest) (1 + (spread cs).length + left))
    (hcs : ∀ s ∈ cs, s.IsConstant) :
    Visits data ⟨left, 1 + (spread cs).length, (spread cs).reverse ++ [.unusable],
      ⟨rest, 10 + (cs.flatMap Slot.bytes).length⟩⟩ := by
  induction cs using List.reverseRecOn generalizing left rest with
  | nil =>
    rw [Nat.add_comm 1, Nat.add_right_comm] at hs
    simpa [spread] using Visits.start hs
  | append_singleton cs s ih =>
    have hread := Slot.read?_bytes (hcs s (by simp)) (1 + (spread cs).length)
      (10 + (cs.flatMap Slot.bytes).length) rest
    rw [spread_concat, List.flatMap_append, List.flatMap_singleton, List.append_assoc,
      List.length_append, ← Nat.add_assoc, Nat.add_assoc _ _ left, Nat.add_comm _ left] at hs
    have hv := ih hs fun s' hs' => hcs s' (List.mem_append_left _ hs')
    rw [spread_concat, List.flatMap_append, List.flatMap_singleton, List.length_append, List.reverse_append,
      List.length_append, ← Nat.add_assoc, ← Nat.add_assoc, List.append_assoc]
    unfold Slot.slots at hv ⊢
    split at hv
    next hw =>
      rw [if_pos hw]
      exact hv.wide hread hw
    next hw =>
      rw [if_neg hw]
      exact hv.narrow hread (by simpa using hw)

/-! ## The errors -/

/-- What is wrong with data that is no class file. -/
inductive Fails (data : Bytes) : Error → Prop
  | shortMagic : data.length < 4 → Fails data (.truncated .magic 0)
  | badMagic {magic rest : Bytes} : data = magic ++ rest → magic.length = 4 →
      Bytes.ofBigEndian magic ≠ classMagic → Fails data (.badMagic (Bytes.ofBigEndian magic))
  | shortVersion {magic rest : Bytes} : data = magic ++ rest → magic.length = 4 →
      Bytes.ofBigEndian magic = classMagic → rest.length < 4 → Fails data (.truncated .version 4)
  | shortCount {header rest : Bytes} : IsHeader header → data = header ++ rest → rest.length < 2 →
      Fails data (.truncated .poolCount 8)
  | emptyPool {header rest : Bytes} : Starts data header rest 0 → Fails data .emptyPool
  | unknownTag {left index : Nat} {read : List Slot} {c : Cursor} {tag : UInt8} :
      Visits data ⟨left + 1, index, read, c⟩ → Slot.read? index c = .error (.unknownTag tag index) →
      Fails data (.unknownTag tag index)
  | shortConstant {left index : Nat} {read : List Slot} {c : Cursor} {part : Part} {offset : Nat} :
      Visits data ⟨left + 1, index, read, c⟩ → Slot.read? index c = .error (.truncated part offset) →
      Fails data (.truncated part offset)
  | shortRemainder {index : Nat} {read : List Slot} {c : Cursor} : Visits data ⟨0, index, read, c⟩ →
      c.rest.length < minRemainder → Fails data (.truncated .classHeader c.offset)

theorem isHeader_append {magic version : Bytes} (hm : magic.length = 4)
    (hn : Bytes.ofBigEndian magic = classMagic) (hv : version.length = 4) : IsHeader (magic ++ version) :=
  ⟨by rw [List.length_append, hm, hv], by rw [← hm, List.take_left, hn]⟩

theorem IsHeader.exists_append (h : IsHeader header) : ∃ magic version, header = magic ++ version ∧
    magic.length = 4 ∧ Bytes.ofBigEndian magic = classMagic ∧ version.length = 4 :=
  ⟨header.take 4, header.drop 4, (List.take_append_drop 4 header).symm, by simp [h.1], h.2, by simp [h.1]⟩

theorem length_take_lt_iff {n : Nat} {s : Bytes} : (s.take n).length < n ↔ s.length < n := by
  rw [List.length_take]
  omega

/-- Data that starts like a class file is one if its pool can be read and enough follows. -/
theorem Starts.parse?_eq {rest : Bytes} {n : Nat} (h : Starts data header rest n) :
    parse? data = if n = 0 then .error .emptyPool else
      PoolState.finish? header ⟨n - 1, 1, [.unusable], ⟨rest, 10⟩⟩ := by
  obtain ⟨magic, version, rfl, hm, hn, hv⟩ := h.isHeader.exists_append
  rw [h.data_eq, List.append_assoc, List.append_assoc, parse?, Cursor.take?_append hm]
  dsimp only [bind, Except.bind]
  rw [if_neg (not_not.2 hn), Cursor.take?_append hv]
  dsimp only
  rw [Cursor.number?_bigEndian (Nat.lt_succ_of_le h.count_le)]
  dsimp only
  simp only [length_take_lt_iff]
  rfl

/-- Reading the data comes to reading on from any state that it goes through. -/
theorem Visits.parse?_eq {st : PoolState} (h : Visits data st) :
    ∃ header, parse? data = st.finish? header := by
  induction h with
  | @start header rest left hs =>
    refine ⟨header, ?_⟩
    rw [hs.parse?_eq, if_neg (Nat.succ_ne_zero left), Nat.add_sub_cancel]
  | narrow _ hs hw ih =>
    simp only [PoolState.finish?, readPool?_of_narrow hs hw] at ih ⊢
    exact ih
  | wide _ hs hw ih =>
    simp only [PoolState.finish?, readPool?_of_wide hs hw] at ih ⊢
    exact ih
  | last _ hs hw ih =>
    simp only [PoolState.finish?, readPool?_of_last hs hw] at ih ⊢
    exact ih

/-- What is wrong with a constant is wrong with the data. -/
theorem Visits.parse?_eq_error (hv : Visits data ⟨left + 1, index, read, c⟩)
    (h : Slot.read? index c = .error e) : parse? data = .error e := by
  obtain ⟨header, hp⟩ := hv.parse?_eq
  rw [hp, PoolState.finish?, readPool?, h]
  rfl

theorem fails_of_parse? (h : parse? data = .error e) : Fails data e := by
  simp only [parse?, bind_eq_error_iff, Prod.exists, ite_throw_eq_error_iff, pure_ne_error,
    Cursor.take?_eq_error_iff, Cursor.take?_eq_ok_iff, Cursor.number?_eq_error_iff,
    Cursor.number?_eq_ok_iff, length_take_lt_iff] at h
  obtain ⟨hlt, rfl⟩ | ⟨magic, ⟨rest, offset⟩, ⟨hd, hm, ho⟩, h⟩ := h
  · exact .shortMagic hlt
  dsimp only at hd ho h
  obtain ⟨hne, rfl⟩ | ⟨hn, h⟩ := h
  · exact .badMagic hd hm hne
  rw [not_not] at hn
  obtain ⟨hlt, rfl⟩ | ⟨version, ⟨rest', offset'⟩, ⟨hr, hv, ho'⟩, h⟩ := h
  · rw [ho]
    exact .shortVersion hd hm hn hlt
  have hh := isHeader_append hm hn hv
  dsimp only at hr ho' h
  subst ho ho' hr
  rw [← List.append_assoc] at hd
  obtain ⟨hlt, rfl⟩ | ⟨n, ⟨rest'', offset''⟩, ⟨hr, hlt, ho⟩, h⟩ := h
  · exact .shortCount hh hd hlt
  dsimp only at hr ho h
  subst ho hr
  have hs : Starts data (magic ++ version) rest'' n :=
    ⟨hh, Nat.le_of_lt_succ hlt, by rw [hd, List.append_assoc (magic ++ version)]⟩
  obtain ⟨rfl, rfl⟩ | ⟨hn, h⟩ := h
  · exact .emptyPool hs
  obtain ⟨left, rfl⟩ := Nat.exists_eq_succ_of_ne_zero hn
  obtain h | ⟨pool, c, h, ⟨hlt, rfl⟩ | ⟨-, h'⟩⟩ := h
  · obtain ⟨left, index, read, c, hv, hr⟩ := (Visits.start hs).exists_of_error h
    obtain ⟨tag, rfl⟩ | ⟨part, offset, rfl, -⟩ := Slot.read?_eq_error hr
    · exact .unknownTag hv hr
    · exact .shortConstant hv hr
  · obtain ⟨index, read, hv, -⟩ := (Visits.start hs).exists_of_ok h
    exact .shortRemainder hv hlt
  · exact h'.elim

theorem Fails.parse?_eq (h : Fails data e) : parse? data = .error e := by
  cases h with
  | shortMagic hlt =>
    rw [parse?, Cursor.take?_eq_error_iff.2 ⟨hlt, rfl⟩]
    rfl
  | badMagic hd hm hne =>
    rw [hd, parse?, Cursor.take?_append hm]
    exact if_pos hne
  | shortVersion hd hm hn hlt =>
    rw [hd, parse?, Cursor.take?_append hm]
    dsimp only [bind, Except.bind]
    rw [if_neg (not_not.2 hn), Cursor.take?_eq_error_iff.2 ⟨hlt, rfl⟩]
  | shortCount hh hd hlt =>
    obtain ⟨magic, version, rfl, hm, hn, hv⟩ := hh.exists_append
    rw [hd, List.append_assoc, parse?, Cursor.take?_append hm]
    dsimp only [bind, Except.bind]
    rw [if_neg (not_not.2 hn), Cursor.take?_append hv]
    dsimp only
    rw [Cursor.number?_eq_error_iff.2 ⟨hlt, rfl⟩]
  | emptyPool hs => rw [hs.parse?_eq, if_pos rfl]
  | unknownTag hv hr => exact hv.parse?_eq_error hr
  | shortConstant hv hr => exact hv.parse?_eq_error hr
  | shortRemainder hv hlt =>
    obtain ⟨header, hp⟩ := hv.parse?_eq
    rw [hp, PoolState.finish?, readPool?]
    exact if_pos hlt

theorem parse?_eq_error_iff : parse? data = .error e ↔ Fails data e :=
  ⟨fails_of_parse?, Fails.parse?_eq⟩

theorem parse?_eq_badMagic_iff {v : Nat} : parse? data = .error (.badMagic v) ↔
    ∃ magic rest, data = magic ++ rest ∧ magic.length = 4 ∧ Bytes.ofBigEndian magic = v ∧
      v ≠ classMagic := by
  rw [parse?_eq_error_iff]
  constructor
  · rintro ⟨⟩
    next magic rest hd hm hne => exact ⟨magic, rest, hd, hm, rfl, hne⟩
  · rintro ⟨magic, rest, hd, hm, rfl, hne⟩
    exact .badMagic hd hm hne

theorem parse?_eq_emptyPool_iff : parse? data = .error .emptyPool ↔
    ∃ header rest, IsHeader header ∧ data = header ++ [0, 0] ++ rest := by
  rw [parse?_eq_error_iff]
  constructor
  · rintro ⟨⟩
    next header rest hs => exact ⟨header, rest, hs.isHeader, hs.data_eq⟩
  · rintro ⟨header, rest, hh, hd⟩
    exact .emptyPool ⟨hh, Nat.zero_le _, hd⟩

/-- The tag is the first that no constant has, and the slot is behind those of the constants before. -/
theorem parse?_eq_unknownTag_iff {tag : UInt8} : parse? data = .error (.unknownTag tag index) ↔
    ∃ header cs rest n, Starts data header (cs.flatMap Slot.bytes ++ tag :: rest) n ∧
      (∀ s ∈ cs, s.IsConstant) ∧ tag ∉ Slot.tags ∧ index = (spread cs).length + 1 ∧ index < n := by
  constructor
  · intro h
    obtain ⟨left, read, c, hv, hr⟩ : ∃ left read c, Visits data ⟨left + 1, index, read, c⟩ ∧
        Slot.read? index c = .error (.unknownTag tag index) := by
      cases fails_of_parse? h with
      | unknownTag hv hr => exact ⟨_, _, _, hv, hr⟩
    obtain ⟨-, htag, hhead⟩ := Slot.read?_eq_unknownTag_iff.1 hr
    obtain ⟨rest, hrest⟩ := List.head?_eq_some_iff.1 hhead
    obtain ⟨header, cs, hf⟩ := hv.exists_filled
    have hs := hf.starts
    have hindex := congrArg List.length (hf.read_eq (Nat.succ_pos left))
    rw [List.length_reverse, ← hf.index_eq, List.length_cons] at hindex
    rw [hrest] at hs
    exact ⟨header, cs, rest, index + (left + 1), hs, hf.isConstant, htag, hindex, by omega⟩
  · rintro ⟨header, cs, rest, n, hs, hcs, htag, rfl, hlt⟩
    obtain ⟨left, rfl⟩ := Nat.exists_eq_add_of_lt hlt
    rw [Nat.add_assoc _ left, Nat.add_comm _ 1] at hs
    rw [Nat.add_comm _ 1]
    exact (hs.visits hcs).parse?_eq_error (Slot.read?_eq_unknownTag_iff.2 ⟨rfl, htag, rfl⟩)

/-- What is missing starts in the data or right behind it. -/
theorem offset_le_of_parse? {part : Part} {offset : Nat}
    (h : parse? data = .error (.truncated part offset)) : offset ≤ data.length := by
  cases fails_of_parse? h with
  | shortMagic _ => exact Nat.zero_le _
  | shortVersion hd hm _ _ =>
    rw [hd, List.length_append, hm]
    exact Nat.le_add_right _ _
  | shortCount hh hd _ =>
    rw [hd, List.length_append, hh.1]
    exact Nat.le_add_right _ _
  | shortConstant hv hr =>
    obtain ⟨front, hd, hlen⟩ := hv.exists_append
    rw [hd, List.length_append, hlen]
    exact Slot.offset_le_of_read? hr
  | shortRemainder hv _ => exact hv.offset_le

/-- **The bytes are a class file if and only if its grammar has them, in a single way; else the error says
what is wrong first.** While the pool is read, the next constant goes to the slot behind those filled,
which with the slots left are no more than a count can say, and the next byte is where the offset says. -/
theorem parse?_outcome (data : Bytes) :
    (∀ c, parse? data = .ok c ↔ c.WellFormed ∧ data = c.bytes) ∧
    (∀ c c' : ClassFile, c.WellFormed → c'.WellFormed → data = c.bytes → data = c'.bytes → c = c') ∧
    (∀ tag, tag ∈ Slot.tags ↔ ∃ s : Slot, s.IsConstant ∧ s.bytes.head? = some tag) ∧
    (∀ v, parse? data = .error (.badMagic v) ↔ ∃ magic rest, data = magic ++ rest ∧ magic.length = 4 ∧
      Bytes.ofBigEndian magic = v ∧ v ≠ classMagic) ∧
    (parse? data = .error .emptyPool ↔ ∃ header rest, IsHeader header ∧ data = header ++ [0, 0] ++ rest) ∧
    (∀ tag index, parse? data = .error (.unknownTag tag index) ↔
      ∃ header cs rest n, Starts data header (cs.flatMap Slot.bytes ++ tag :: rest) n ∧
        (∀ s ∈ cs, s.IsConstant) ∧ tag ∉ Slot.tags ∧ index = (spread cs).length + 1 ∧ index < n) ∧
    (∀ e, parse? data = .error e → (∃ v, e = .badMagic v) ∨ e = .emptyPool ∨
      (∃ tag index, e = .unknownTag tag index) ∨
      ∃ part offset, e = .truncated part offset ∧ offset ≤ data.length) ∧
    (∀ st, Visits data st → (∃ header, parse? data = st.finish? header) ∧
      st.index = st.read.length ∧ st.index + st.left ≤ 0xFFFF ∧ st.cursor.offset ≤ data.length ∧
      st.cursor.rest = data.drop st.cursor.offset) := by
  refine ⟨fun c => parse?_eq_ok_iff, fun c c' hc hc' hd hd' => ?_, fun tag => Slot.mem_tags_iff_exists,
    fun v => parse?_eq_badMagic_iff, parse?_eq_emptyPool_iff, fun tag index => parse?_eq_unknownTag_iff,
    fun e h => ?_, fun st hv => ?_⟩
  · have h := parse?_eq_ok_iff.2 ⟨hc, hd⟩
    rw [parse?_eq_ok_iff.2 ⟨hc', hd'⟩] at h
    exact (Except.ok.inj h).symm
  · cases e with
    | badMagic v => exact .inl ⟨v, rfl⟩
    | emptyPool => exact .inr (.inl rfl)
    | unknownTag tag index => exact .inr (.inr (.inl ⟨tag, index, rfl⟩))
    | truncated part offset => exact .inr (.inr (.inr ⟨part, offset, rfl, offset_le_of_parse? h⟩))
    | utf8TooLong index n => cases fails_of_parse? h
  · obtain ⟨header, cs, hf⟩ := hv.exists_filled
    exact ⟨hv.parse?_eq, hf.index_eq, hf.starts.count_le, hv.offset_le, hv.rest_eq_drop⟩

end ClassFile

end PackageMigration
