import PackageMigration.Container.Zip
import PackageMigration.Proofs.Container.Bits
/-
  Compressed data is read back.

  * `Code.symbols`: the symbols that a code has.
  * `Deflate.literal`: the bits that a byte is written in.

  Main statements: `inflate?_deflate`, `Container.Zip.decompress?_compress` (a content is read back in
  each method).
-/
namespace PackageMigration

/-! ## Symbols of codes -/

namespace Code

/-- The symbols of a code, in the order of their bits. -/
def symbols : Code → List Nat
  | unused => []
  | symbol n => [n]
  | branch zero one => zero.symbols ++ one.symbols

/-- Each symbol of a code has bits. -/
theorem exists_path?_of_mem_symbols {c : Code} {n : Nat} (h : n ∈ c.symbols) :
    ∃ p, c.path? n = some p := by
  induction c with
  | unused => cases h
  | symbol m => exact ⟨[], if_pos (List.mem_singleton.1 h).symm⟩
  | branch zero one ihz iho =>
    rcases hzero : zero.path? n with _ | p
    · have hone : n ∈ one.symbols := (List.mem_append.1 h).resolve_left fun hz => by
        obtain ⟨p, hp⟩ := ihz hz
        rw [hzero] at hp
        cases hp
      obtain ⟨p, hp⟩ := iho hone
      exact ⟨true :: p, by simp [path?, hzero, hp]⟩
    · exact ⟨false :: p, by simp [path?, hzero]⟩

/-- Only the symbol of a code with a single one has no bits at all. -/
theorem symbols_of_path?_eq_nil {c : Code} {n : Nat} (h : c.path? n = some []) : c.symbols = [n] := by
  cases c with
  | unused => cases h
  | symbol m => simpa [path?, symbols] using h
  | branch zero one =>
    simp only [path?] at h
    split at h
    · cases h
    · simp at h

end Code

/-! ## Compressed data -/

namespace Deflate

-- `unfold` does not give this equation: it looks into `endOfBlock`, one by one down from 256.
set_option maxRecDepth 2000 in
theorem symbols?_succ (code distances : Code) (fuel : Nat) (s : BitStream) (out : Array UInt8) :
    symbols? code distances (fuel + 1) s out =
      match code.read? s with
      | none => none
      | some (symbol, s) =>
        if symbol < endOfBlock then symbols? code distances fuel s (out.push symbol.toUInt8)
        else if symbol = endOfBlock then some (s, out)
        else
          match copy? distances symbol s out with
          | none => none
          | some (s, out) => symbols? code distances fuel s out :=
  (rfl)

/-- Bytes and the end behind them are read from their bits in a code. -/
theorem symbols?_of_bits {code : Code} {written : UInt8 → Bits} {ending rest : Bits}
    (hwritten : ∀ b, code.path? b.toNat = some (written b))
    (hending : code.path? endOfBlock = some ending) {data : Bytes} {fuel : Nat} {s : BitStream}
    (hs : s.bits = data.flatMap written ++ (ending ++ rest)) (hfuel : data.length < fuel)
    (distances : Code) (out : Array UInt8) :
    ∃ s', symbols? code distances fuel s out = some (s', out ++ data.toArray) := by
  induction data generalizing fuel s out with
  | nil =>
    obtain ⟨fuel, rfl⟩ := Nat.exists_eq_succ_of_ne_zero (Nat.ne_zero_of_lt hfuel)
    obtain ⟨s', hread, -⟩ := Code.read?_path? hending hs
    refine ⟨s', ?_⟩
    rw [symbols?_succ, hread]
    simp
  | cons b data ih =>
    obtain ⟨fuel, rfl⟩ := Nat.exists_eq_succ_of_ne_zero (Nat.ne_zero_of_lt hfuel)
    rw [List.flatMap_cons, List.append_assoc] at hs
    obtain ⟨s₁, hread, hs₁⟩ := Code.read?_path? (hwritten b) hs
    obtain ⟨s', hrest⟩ := ih hs₁ (Nat.lt_of_succ_lt_succ hfuel) (out.push b)
    have hb : b.toNat < endOfBlock := b.toNat_lt
    refine ⟨s', ?_⟩
    rw [symbols?_succ, hread]
    simp [hb, hrest]

/-- The symbols of the fixed code, those of fewer bits first. -/
theorem symbols_fixedCode :
    fixedCode.symbols =
      List.range' 256 24 ++ (List.range 144 ++ (List.range' 280 8 ++ List.range' 144 112)) := by
  decide +kernel

/-- Every byte, and the end of a block, has bits in the fixed code. -/
theorem exists_path?_fixedCode {n : Nat} (h : n ≤ endOfBlock) :
    ∃ p, fixedCode.path? n = some p := by
  have hmem : n ∈ fixedCode.symbols := by
    rw [endOfBlock] at h
    simp only [symbols_fixedCode, List.mem_append, List.mem_range, List.mem_range'_1]
    omega
  exact Code.exists_path?_of_mem_symbols hmem

/-- The bits of a byte in the fixed code. -/
def literal (b : UInt8) : Bits := literals.getD b.toNat []

theorem literal_eq (b : UInt8) : literal b = (fixedCode.path? b.toNat).getD [] := by
  have hb : b.toNat < 256 := b.toNat_lt
  simp [literal, literals, Array.getD, hb]

theorem path?_literal (b : UInt8) : fixedCode.path? b.toNat = some (literal b) := by
  obtain ⟨p, hp⟩ := exists_path?_fixedCode (Nat.le_of_lt b.toNat_lt)
  rw [literal_eq, hp, Option.getD_some]

theorem literal_ne_nil (b : UInt8) : literal b ≠ [] := by
  intro h
  have hsymbols := Code.symbols_of_path?_eq_nil (h ▸ path?_literal b)
  rw [symbols_fixedCode] at hsymbols
  simpa using congrArg List.length hsymbols

theorem path?_endOfBlock : fixedCode.path? endOfBlock = some closing := by
  obtain ⟨p, hp⟩ := exists_path?_fixedCode (Nat.le_refl endOfBlock)
  rw [closing, hp, Option.getD_some]

/-- Each byte takes one bit at least. -/
theorem length_le_literals (data : Bytes) : data.length ≤ (data.flatMap literal).length := by
  induction data with
  | nil => exact Nat.zero_le _
  | cons b data ih =>
    have := List.length_pos_iff.2 (literal_ne_nil b)
    rw [List.flatMap_cons, List.length_append, List.length_cons]
    omega

/-- A sink holds the bits of the bytes that are written to it. -/
theorem holds_literals {s : BitSink} {bits : Bits} (h : s.Holds bits) (data : Bytes) :
    (data.foldl (fun s b => s.append (literal b)) s).Holds (bits ++ data.flatMap literal) := by
  induction data generalizing s bits with
  | nil => simpa using h
  | cons b data ih => simpa [List.append_assoc] using ih (h.append (literal b))

/-- The bits of compressed data: one block, which is the last one and in the fixed code. -/
theorem exists_bits_deflate (data : Bytes) :
    ∃ n, (BitStream.ofBytes (deflate data)).bits =
      [true] ++ ([true, false] ++
        (data.flatMap literal ++ (closing ++ List.replicate n false))) := by
  have hopened : (BitSink.empty.append opening).Holds opening := BitSink.holds_empty.append opening
  obtain ⟨n, hn⟩ := ((holds_literals hopened data).append closing).toBytes
  refine ⟨n, ?_⟩
  rw [List.append_assoc, List.append_assoc] at hn
  rw [BitStream.bits_ofBytes, deflate]
  exact hn

end Deflate

/-- **Compressed data is read back.** -/
theorem inflate?_deflate (data : Bytes) : inflate? (deflate data) = some data := by
  obtain ⟨n, hs⟩ := Deflate.exists_bits_deflate data
  obtain ⟨s₁, hlast, hs₁⟩ := BitStream.number?_of_bits hs
  obtain ⟨s₂, hkind, hs₂⟩ := BitStream.number?_of_bits hs₁
  have hlength := congrArg List.length hs
  rw [BitStream.bits_ofBytes, Bits.length_ofBytes] at hlength
  simp only [List.length_append, List.length_cons, List.length_nil] at hlength
  obtain ⟨fuel, hfuel⟩ : ∃ fuel, 8 * (deflate data).length = fuel + 1 :=
    Nat.exists_eq_succ_of_ne_zero (by omega)
  -- each byte of the data took a bit, so the bits are enough turns
  have hturns : data.length < fuel := by
    have := Deflate.length_le_literals data
    omega
  obtain ⟨s', hsymbols⟩ := Deflate.symbols?_of_bits Deflate.path?_literal Deflate.path?_endOfBlock
    hs₂ hturns Deflate.fixedDistances #[]
  have hlast : (BitStream.ofBytes (deflate data)).number? 1 = some (1, s₁) := hlast
  have hkind : s₁.number? 2 = some (1, s₂) := hkind
  simp [inflate?, hfuel, Deflate.blocks?, hlast, hkind, Deflate.block?, hsymbols]

/-- A content is read back in the method that it was written in. -/
theorem Container.Zip.decompress?_compress (method : Container.Method) (data : Bytes) :
    decompress? method (compress method data) = some data := by
  cases method with
  | stored => rfl
  | deflated => exact inflate?_deflate data

end PackageMigration
