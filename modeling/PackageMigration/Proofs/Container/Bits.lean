import Mathlib.Tactic.Ring
import PackageMigration.Container.Bits
/-
  Bits that are written and read.

  * `Bits.value`: the number that bits stand for.
  * `BitSink.Holds`: the bits that were put into a sink.

  Main statements: `BitStream.number?_of_bits` (a number is read from its bits), `BitSink.Holds.toBytes`
  (the bits of a sink are those of its bytes).
-/
namespace PackageMigration

/-! ## Numbers -/

namespace Bits

theorem ofBytes_concat (s : Bytes) (b : UInt8) : ofBytes (s ++ [b]) = ofBytes s ++ ofByte b := by
  rw [ofBytes, List.flatMap_append, List.flatMap_singleton]
  rfl

theorem length_ofBytes (s : Bytes) : (ofBytes s).length = 8 * s.length := by
  induction s with
  | nil => rfl
  | cons b s ih =>
    rw [ofBytes, List.flatMap_cons, List.length_append, List.length_cons, ← ofBytes, ih, Nat.mul_succ,
      Nat.add_comm]
    rfl

/-- The number that bits stand for, the least significant one first. -/
def value : Bits → Nat
  | [] => 0
  | b :: bits => b.toNat + 2 * value bits

theorem value_append (p q : Bits) : value (p ++ q) = value p + 2 ^ p.length * value q := by
  induction p with
  | nil => simp [value]
  | cons b p ih =>
    rw [List.cons_append, value, ih, value, List.length_cons]
    ring

theorem value_zeros (n : Nat) : value (List.replicate n false) = 0 := by
  induction n with
  | zero => rfl
  | succ n ih => simp [List.replicate_succ, value, ih]

/-- A byte has the bits that it is the number of. -/
theorem ofByte_value {bits : Bits} (h : bits.length = 8) : ofByte bits.value.toUInt8 = bits := by
  match bits, h with
  | [b₀, b₁, b₂, b₃, b₄, b₅, b₆, b₇], _ => revert b₀ b₁ b₂ b₃ b₄ b₅ b₆ b₇; decide

/-- If there are fewer, the last bits of the byte are zeros. -/
theorem ofByte_value_of_length_le {bits : Bits} (h : bits.length ≤ 8) :
    ofByte bits.value.toUInt8 = bits ++ List.replicate (8 - bits.length) false := by
  have hvalue : (bits ++ List.replicate (8 - bits.length) false).value = bits.value := by
    rw [value_append, value_zeros, Nat.mul_zero, Nat.add_zero]
  rw [← hvalue]
  exact ofByte_value (by simp; omega)

end Bits

/-- A number is read from its bits, whatever follows. -/
theorem BitStream.number?_of_bits {p rest : Bits} {s : BitStream} (hs : s.bits = p ++ rest) :
    ∃ s', s.number? p.length = some (p.value, s') ∧ s'.bits = rest := by
  induction p generalizing s with
  | nil => exact ⟨s, rfl, hs⟩
  | cons b p ih =>
    obtain ⟨s₁, hnext, hs₁⟩ := next?_of_bits hs
    obtain ⟨s', hnumber, hs'⟩ := ih hs₁
    exact ⟨s', by simp [number?, hnext, hnumber, Bits.value], hs'⟩

/-! ## Sinks -/

namespace BitSink

/-- The bits that were put into a sink: those of the full bytes, then the ones of the byte that is
not full yet. -/
def Holds (s : BitSink) (bits : Bits) : Prop :=
  ∃ started : Bits, bits = Bits.ofBytes s.full.toList ++ started ∧ started.length < 8 ∧
    s.value = started.value ∧ s.weight = 2 ^ started.length

variable {s : BitSink} {bits : Bits}

theorem holds_empty : empty.Holds [] := ⟨[], rfl, by decide, rfl, rfl⟩

theorem Holds.push (h : s.Holds bits) (b : Bool) : (s.push b).Holds (bits ++ [b]) := by
  obtain ⟨full, value, weight⟩ := s
  obtain ⟨started, rfl, hlength, hvalue, hweight⟩ := h
  dsimp only at hvalue hweight
  have hmore : value + b.toNat * weight = (started ++ [b]).value := by
    rw [Bits.value_append, hvalue, hweight, Bits.value, Bits.value, Nat.mul_comm]
    rfl
  simp only [BitSink.push, hmore]
  split
  next hfull =>
    have hseven : started.length = 7 :=
      (Nat.pow_right_inj Nat.one_lt_two).1 (hweight.symm.trans hfull)
    refine ⟨[], ?_, by decide, rfl, rfl⟩
    rw [Array.toList_push, Bits.ofBytes_concat, Bits.ofByte_value (by simp [hseven]),
      List.append_nil, List.append_assoc]
  next hroom =>
    refine ⟨started ++ [b], List.append_assoc .., ?_, rfl, ?_⟩
    · have hne : started.length ≠ 7 := fun h => hroom (by rw [hweight, h]; rfl)
      rw [List.length_append, List.length_singleton]
      omega
    · rw [hweight, List.length_append, List.length_singleton, Nat.pow_succ, Nat.mul_comm]

theorem Holds.append (h : s.Holds bits) (more : Bits) : (s.append more).Holds (bits ++ more) := by
  induction more generalizing s bits with
  | nil => rwa [List.append_nil]
  | cons b more ih =>
    have := ih (h.push b)
    rwa [List.append_assoc] at this

/-- **The bytes have the bits in their order, and zeros behind them.** -/
theorem Holds.toBytes (h : s.Holds bits) :
    ∃ n, Bits.ofBytes s.toBytes = bits ++ List.replicate n false := by
  obtain ⟨started, rfl, hlength, hvalue, hweight⟩ := h
  rw [BitSink.toBytes]
  split
  next hone =>
    have hnil : started = [] := List.length_eq_zero_iff.1
      ((Nat.pow_right_inj Nat.one_lt_two).1 (hweight.symm.trans hone))
    exact ⟨0, by simp [hnil]⟩
  next =>
    refine ⟨8 - started.length, ?_⟩
    rw [Array.toList_push, Bits.ofBytes_concat, hvalue,
      Bits.ofByte_value_of_length_le (Nat.le_of_lt hlength), List.append_assoc]

end BitSink

end PackageMigration
