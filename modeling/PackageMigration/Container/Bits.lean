import PackageMigration.Bytes
/-
  Streams of bits, as compressed data is written: each byte gives its least significant bit first.

  * `Bits.ofBytes`: the bits of bytes.
  * `BitStream`: bits that are taken from bytes one by one.
  * `BitStream.number?`: the number in the next bits; `aligned`: the stream from the next byte on.
  * `BitSink`: bytes that bits are put into one by one.

  Main statement: `next?_of_bits` (the bits of a stream come in their order).
-/
namespace PackageMigration

/-- Bits in their order. -/
abbrev Bits := List Bool

namespace Bits

/-- The bits of a byte, the least significant one first. -/
def ofByte (b : UInt8) : Bits :=
  [b &&& 0x01 != 0, b &&& 0x02 != 0, b &&& 0x04 != 0, b &&& 0x08 != 0, b &&& 0x10 != 0,
    b &&& 0x20 != 0, b &&& 0x40 != 0, b &&& 0x80 != 0]

def ofBytes (s : Bytes) : Bits := s.flatMap ofByte

end Bits

/-- Bits that are taken from bytes one by one. -/
structure BitStream where
  /-- What is left of the bits of the byte before the next. -/
  pending : Bits
  /-- The bytes of which no bit is taken yet. -/
  behind : Bytes
  deriving DecidableEq, Repr

namespace BitStream

/-- The stream of the bits of bytes. -/
def ofBytes (s : Bytes) : BitStream := ⟨[], s⟩

/-- All bits of a stream. -/
def bits (s : BitStream) : Bits := s.pending ++ Bits.ofBytes s.behind

/-- The next bit, and the stream behind it. -/
@[inline] def next? (s : BitStream) : Option (Bool × BitStream) :=
  match s.pending with
  | b :: pending => some (b, ⟨pending, s.behind⟩)
  | [] =>
    match s.behind with
    | [] => none
    | byte :: behind => some (byte &&& 0x01 != 0, ⟨(Bits.ofByte byte).tail, behind⟩)

theorem bits_ofBytes (s : Bytes) : (ofBytes s).bits = Bits.ofBytes s := rfl

/-- The first of all bits is the next one. -/
theorem next?_of_bits {s : BitStream} {b : Bool} {rest : Bits} (h : s.bits = b :: rest) :
    ∃ s', s.next? = some (b, s') ∧ s'.bits = rest := by
  obtain ⟨pending, behind⟩ := s
  cases pending with
  | cons c pending =>
    obtain ⟨rfl, rfl⟩ := List.cons.inj h
    exact ⟨_, rfl, rfl⟩
  | nil =>
    cases behind with
    | nil => simp [bits, Bits.ofBytes] at h
    | cons byte behind =>
      obtain ⟨rfl, rfl⟩ := List.cons.inj h
      exact ⟨_, rfl, rfl⟩

/-- The number in the next `n` bits, and the stream behind them. -/
def number? : Nat → BitStream → Option (Nat × BitStream)
  | 0, s => some (0, s)
  | n + 1, s =>
    match s.next? with
    | none => none
    | some (b, s) =>
      match number? n s with
      | none => none
      | some (v, s) => some (b.toNat + 2 * v, s)

/-- The stream from the next byte on. -/
def aligned (s : BitStream) : BitStream := ⟨[], s.behind⟩

end BitStream

/-- Bytes that bits are put into one by one. -/
structure BitSink where
  full : Array UInt8
  /-- The number in the bits of the byte that is not full yet. -/
  value : Nat
  /-- What the next bit counts in that byte: 1, then 2, up to 128. -/
  weight : Nat
  deriving DecidableEq, Repr

namespace BitSink

def empty : BitSink := ⟨#[], 0, 1⟩

/-- The sink with one more bit. -/
def push (s : BitSink) (b : Bool) : BitSink :=
  let ⟨full, value, weight⟩ := s
  let value := value + b.toNat * weight
  if weight = 128 then ⟨full.push value.toUInt8, 0, 1⟩ else ⟨full, value, 2 * weight⟩

/-- The sink with more bits. -/
def append (s : BitSink) (bits : Bits) : BitSink := bits.foldl push s

/-- The bytes that hold the bits. The last one is filled up with zeros. -/
def toBytes (s : BitSink) : Bytes :=
  (if s.weight = 1 then s.full else s.full.push s.value.toUInt8).toList

end BitSink

end PackageMigration
