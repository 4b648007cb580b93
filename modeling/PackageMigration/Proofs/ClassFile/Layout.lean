import PackageMigration.ClassFile.Parser
import PackageMigration.Proofs.Except
/-
  The class files that can be read.

  * `Slot.IsConstant`: a constant that can be written out and read again.
  * `Laid`: slots as they follow slot 0, wide constants with the slot behind them.
  * `ClassFile.WellFormed`: all the parts of a class file fit together.

  Main statements: `readPool?_bytes`, `parse?_eq_ok_iff` (reading a class file finds the
  well-formed one that the bytes spell).
-/
namespace PackageMigration

/-- A constant that its bytes determine: a text no longer than its length field can say, or another
constant with a body of its tag's size. -/
def Slot.IsConstant : Slot → Prop
  | .unusable => False
  | .utf8 payload => payload.length ≤ 0xFFFF
  | .other tag body => tag ≠ utf8Tag ∧ bodySize? tag = some body.length

/-- Slots behind slot 0. A wide constant is followed by an unusable slot, unless it comes last. -/
inductive Laid : List Slot → Prop
  | nil : Laid []
  | narrow {s : Slot} {ss : List Slot} :
      s.IsConstant → s.isWide = false → Laid ss → Laid (s :: ss)
  | wide {s : Slot} {ss : List Slot} :
      s.IsConstant → s.isWide → Laid ss → Laid (s :: .unusable :: ss)
  | last {s : Slot} : s.IsConstant → s.isWide → Laid [s]

/-- The header, the pool and the remainder are what a class file has. -/
structure ClassFile.WellFormed (c : ClassFile) : Prop where
  header : c.header.length = 8
  magic : Bytes.ofBigEndian (c.header.take 4) = classMagic
  pool : ∃ ss, c.pool = .unusable :: ss ∧ Laid ss
  count : c.pool.length ≤ 0xFFFF
  remainder : minRemainder ≤ c.remainder.length

/-! ## Reading -/

namespace Cursor

theorem number?_eq_ok_iff {c d : Cursor} {part : ClassFile.Part} {n v : Nat} :
    c.number? part n = .ok (v, d) ↔
      c.rest = Bytes.bigEndian n v ++ d.rest ∧ v < Bytes.capacity n ∧ d.offset = c.offset + n := by
  simp only [number?, bind_eq_ok_iff, Prod.exists, pure_eq_ok_iff, Prod.mk.injEq, take?_eq_ok_iff]
  constructor
  · rintro ⟨s, d, ⟨hr, rfl, ho⟩, rfl, rfl⟩
    exact ⟨by rw [Bytes.bigEndian_ofBigEndian, hr], Bytes.ofBigEndian_lt s, ho⟩
  · rintro ⟨hr, hv, ho⟩
    exact ⟨_, d, ⟨hr, Bytes.length_bigEndian n v, ho⟩, Bytes.ofBigEndian_bigEndian hv, rfl⟩

end Cursor

theorem Slot.read?_eq_ok_iff {index : Nat} {c d : Cursor} {s : Slot} :
    Slot.read? index c = .ok (s, d) ↔
      s.IsConstant ∧ c.rest = s.bytes ++ d.rest ∧ d.offset = c.offset + s.bytes.length := by
  simp only [Slot.read?, bind_eq_ok_iff, Prod.exists, Cursor.take?_eq_ok_iff]
  constructor
  · rintro ⟨tag, c', ⟨hr, ht, ho⟩, h⟩
    obtain ⟨tag, rfl⟩ := List.length_eq_one_iff.1 ht
    rw [List.headD_cons] at h
    split at h
    next htag =>
      simp only [bind_eq_ok_iff, Prod.exists, pure_eq_ok_iff, Prod.mk.injEq, Cursor.take?_eq_ok_iff,
        Cursor.number?_eq_ok_iff] at h
      obtain ⟨n, c'', ⟨hr', hn, ho'⟩, payload, c''', ⟨hr'', rfl, ho''⟩, rfl, rfl⟩ := h
      refine ⟨Nat.le_of_lt_succ hn, ?_, ?_⟩
      · simp [hr, hr', hr'', htag, Slot.bytes]
      · simp [ho, ho', ho'', Slot.bytes]; omega
    next htag =>
      split at h
      · cases h
      next size hs =>
        simp only [bind_eq_ok_iff, Prod.exists, pure_eq_ok_iff, Prod.mk.injEq,
          Cursor.take?_eq_ok_iff] at h
        obtain ⟨body, c'', ⟨hr', rfl, ho'⟩, rfl, rfl⟩ := h
        refine ⟨⟨htag, hs⟩, ?_, ?_⟩
        · simp [hr, hr', Slot.bytes]
        · simp [ho, ho', Slot.bytes]; omega
  · rintro ⟨hs, hr, ho⟩
    cases s with
    | unusable => exact hs.elim
    | utf8 payload =>
      refine ⟨[utf8Tag], ⟨Bytes.bigEndian 2 payload.length ++ payload ++ d.rest, c.offset + 1⟩,
        ⟨hr, rfl, rfl⟩, ?_⟩
      simp only [List.headD_cons, if_true, bind_eq_ok_iff, Prod.exists, pure_eq_ok_iff, Prod.mk.injEq,
        Cursor.take?_eq_ok_iff, Cursor.number?_eq_ok_iff]
      refine ⟨payload.length, ⟨payload ++ d.rest, c.offset + 3⟩,
        ⟨by simp, Nat.lt_succ_of_le hs, rfl⟩, payload, d, ⟨rfl, rfl, ?_⟩, rfl, rfl⟩
      simp [ho, Slot.bytes]; omega
    | other tag body =>
      obtain ⟨ht, hb⟩ := hs
      refine ⟨[tag], ⟨body ++ d.rest, c.offset + 1⟩, ⟨hr, rfl, rfl⟩, ?_⟩
      simp only [List.headD_cons, if_neg ht, hb, bind_eq_ok_iff, Prod.exists, pure_eq_ok_iff,
        Prod.mk.injEq, Cursor.take?_eq_ok_iff]
      refine ⟨body, d, ⟨rfl, rfl, ?_⟩, rfl, rfl⟩
      simp [ho, Slot.bytes]; omega

/-- A constant is read back from its bytes. -/
theorem Slot.read?_bytes {s : Slot} (hs : s.IsConstant) (index offset : Nat) (rest : Bytes) :
    Slot.read? index ⟨s.bytes ++ rest, offset⟩ = .ok (s, ⟨rest, offset + s.bytes.length⟩) :=
  read?_eq_ok_iff.2 ⟨hs, rfl, rfl⟩

namespace ClassFile

/-- Slots are read back from their bytes. -/
theorem readPool?_bytes {ss : List Slot} (h : Laid ss) (index offset : Nat) (read : List Slot)
    (rest : Bytes) :
    readPool? ss.length index read ⟨ss.flatMap Slot.bytes ++ rest, offset⟩ =
      .ok (read.reverse ++ ss, ⟨rest, offset + (ss.flatMap Slot.bytes).length⟩) := by
  induction h generalizing index offset read with
  | nil => simp [readPool?]
  | narrow hs hw _ ih =>
    simp only [List.flatMap_cons, List.append_assoc, List.length_cons, readPool?]
    rw [Slot.read?_bytes hs]
    simp [hw, ih, Nat.add_assoc]
  | wide hs hw _ ih =>
    simp only [List.flatMap_cons, List.append_assoc, List.length_cons, readPool?]
    rw [Slot.read?_bytes hs]
    simp [hw, ih, Nat.add_assoc, Slot.bytes]
  | last hs hw =>
    simp only [List.flatMap_cons, List.append_assoc, List.length_cons, List.length_nil, readPool?]
    rw [Slot.read?_bytes hs]
    simp [hw]

/-- Slots that are read are laid out as they have to be. -/
theorem exists_laid_of_readPool? {left index : Nat} {read pool : List Slot} {c d : Cursor}
    (h : readPool? left index read c = .ok (pool, d)) :
    ∃ ss, Laid ss ∧ ss.length = left ∧ pool = read.reverse ++ ss ∧
      c.rest = ss.flatMap Slot.bytes ++ d.rest := by
  fun_induction readPool? left index read c with
  | case1 index read c =>
    cases h
    exact ⟨[], .nil, rfl, by simp, rfl⟩
  | case2 => cases h
  | case3 index read c s c' hs hw =>
    cases h
    obtain ⟨hconst, hr, -⟩ := Slot.read?_eq_ok_iff.1 hs
    exact ⟨[s], .last hconst hw, rfl, by simp, by simp [hr]⟩
  | case4 index read c s c' hs hw left ih =>
    obtain ⟨hconst, hr, -⟩ := Slot.read?_eq_ok_iff.1 hs
    obtain ⟨ss, hl, rfl, rfl, hr'⟩ := ih h
    exact ⟨s :: .unusable :: ss, .wide hconst hw hl, rfl, by simp, by simp [hr, hr', Slot.bytes]⟩
  | case5 left index read c s c' hs hw ih =>
    obtain ⟨hconst, hr, -⟩ := Slot.read?_eq_ok_iff.1 hs
    obtain ⟨ss, hl, rfl, rfl, hr'⟩ := ih h
    exact ⟨s :: ss, .narrow hconst (by simpa using hw) hl, rfl, by simp, by simp [hr, hr']⟩

/-- **The bytes are read as a class file if and only if they spell it and it is well formed.** -/
theorem parse?_eq_ok_iff {data : Bytes} {c : ClassFile} :
    parse? data = .ok c ↔ c.WellFormed ∧ data = c.bytes := by
  simp only [parse?, bind_eq_ok_iff, Prod.exists, ite_throw_eq_ok_iff, pure_eq_ok_iff,
    Cursor.take?_eq_ok_iff, Cursor.number?_eq_ok_iff]
  constructor
  · rintro ⟨magic, c1, ⟨rfl, hm, -⟩, hn, version, c2, ⟨hr1, hv, -⟩, count, c3, ⟨hr2, hc, -⟩, h0, pool, c4,
      hp, hr, rfl⟩
    obtain ⟨ss, hl, hlen, rfl, hr3⟩ := exists_laid_of_readPool? hp
    have hlen' : ss.length + 1 = count := by omega
    refine ⟨⟨by simp [hm, hv], ?_, ⟨ss, rfl, hl⟩, ?_, ?_⟩, ?_⟩
    · simpa [← hm] using hn
    · have : Bytes.capacity 2 = 0x10000 := rfl
      simp only [List.reverse_singleton, List.length_append, List.length_singleton]
      omega
    · simp only [List.length_take] at hr
      simp only [minRemainder] at hr ⊢
      omega
    · simp [bytes, hr1, hr2, hr3, hlen', Slot.bytes]
  · obtain ⟨header, pool, remainder⟩ := c
    rintro ⟨⟨hh, hm, ⟨ss, rfl, hl⟩, hc, hr⟩, rfl⟩
    have hpool := readPool?_bytes hl 1 10 [.unusable] remainder
    refine ⟨header.take 4, ⟨header.drop 4 ++ _, 4⟩, ⟨?_, by simp [hh], rfl⟩, by simp [hm], header.drop 4,
      ⟨_, 8⟩, ⟨rfl, by simp [hh], rfl⟩, ss.length + 1, ⟨_, 10⟩, ⟨rfl, ?_, rfl⟩, by simp, _, _, hpool, ?_, ?_⟩
    · simp [bytes, ← List.append_assoc, Slot.bytes]
    · exact Nat.lt_succ_of_le hc
    · simp only [List.length_take, minRemainder] at hr ⊢
      omega
    · simp

end ClassFile

end PackageMigration
